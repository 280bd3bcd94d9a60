import Revalle.Data.Ascii

/-!
# The registered header fields

The fields that the proxy knows by an id, and the table of their properties. Of
the kinds of a field only two matter for how a header is stored: whether its
value is a list, so that several fields can be joined, and whether it is for one
hop only.
-/

namespace RegisteredHeaders

open Ascii

/-- `Http::HdrType`. The ids `other` and `badHdr` are not those of a known field. -/
inductive HdrType
  | accept | acceptCharset | acceptEncoding | acceptLanguage | acceptRanges | age | allow
  | alternateProtocol | authenticationInfo | authorization | cacheControl | cacheStatus | cdnLoop
  | connection | contentBase | contentDisposition | contentEncoding | contentLanguage
  | contentLength | contentLocation | contentMd5 | contentRange | contentType | cookie | cookie2
  | date | etag | expect | expires | forwarded | from_ | host | ifMatch | ifModifiedSince
  | ifNoneMatch | ifRange | ifUnmodifiedSince | keepAlive | key | lastModified | link | location
  | maxForwards | mimeVersion | negotiate | origin | pragma | priority | proxyAuthenticate
  | proxyAuthenticationInfo | proxyAuthorization | proxyConnection | proxySupport | public_
  | range | referer | requestRange | retryAfter | server | setCookie | setCookie2 | te | title
  | trailer | transferEncoding | translate | unlessModifiedSince | upgrade | userAgent | vary
  | via | wwwAuthenticate | xForwardedFor | xSquidError | hdrXAcceleratorVary | xNextServices
  | surrogateCapability | surrogateControl | frontEndHttps | ftpCommand | ftpArguments | ftpPre
  | ftpStatus | ftpReason | other | badHdr
  deriving DecidableEq, Repr

/-- `Http::HdrFieldType`. -/
inductive HdrFieldType
  | ftInvalid | ftInt | ftInt64 | ftStr | ftDate1123 | ftETag | ftPCc | ftPContRange | ftPRange
  | ftPSc | ftDate1123OrETag
  deriving DecidableEq, Repr

/-- `HdrKind`, without the kinds of messages that a field belongs to. -/
inductive HdrKind
  | listHeader
  | hopByHopHeader
  deriving DecidableEq, Repr

/-- `HeaderTableRecord`. -/
structure HeaderTableRecord where
  name : String
  id : HdrType
  type : HdrFieldType
  kind : List HdrKind

namespace HeaderTableRecord

def list (r : HeaderTableRecord) : Bool := .listHeader ∈ r.kind

def hopbyhop (r : HeaderTableRecord) : Bool := .hopByHopHeader ∈ r.kind

/-- The bytes of the name. -/
def nameBytes (r : HeaderTableRecord) : List UInt8 := r.name.toUTF8.data.toList

end HeaderTableRecord

/-- `any_registered_header`: all but `OTHER` and `BAD_HDR`. -/
def HdrType.registered (id : HdrType) : Bool := id ≠ .other ∧ id ≠ .badHdr

/-- `HeaderLookupTable_t::BadHdr`. -/
def badHdrRecord : HeaderTableRecord := ⟨"*INVALID*:", .badHdr, .ftInvalid, []⟩

/-- The table of `RegisteredHeadersHash.gperf`. -/
def headerDefinitionsTable : List HeaderTableRecord :=
  [ ⟨"Accept", .accept, .ftStr, [.listHeader]⟩,
    ⟨"Accept-Charset", .acceptCharset, .ftStr, [.listHeader]⟩,
    ⟨"Accept-Encoding", .acceptEncoding, .ftStr, [.listHeader]⟩,
    ⟨"Accept-Language", .acceptLanguage, .ftStr, [.listHeader]⟩,
    ⟨"Accept-Ranges", .acceptRanges, .ftStr, [.listHeader]⟩,
    ⟨"Age", .age, .ftInt, []⟩,
    ⟨"Allow", .allow, .ftStr, [.listHeader]⟩,
    ⟨"Alternate-Protocol", .alternateProtocol, .ftStr, [.hopByHopHeader]⟩,
    ⟨"Authentication-Info", .authenticationInfo, .ftStr, [.listHeader]⟩,
    ⟨"Authorization", .authorization, .ftStr, []⟩,
    ⟨"Cache-Control", .cacheControl, .ftPCc, [.listHeader]⟩,
    ⟨"Cache-Status", .cacheStatus, .ftStr, [.listHeader]⟩,
    ⟨"CDN-Loop", .cdnLoop, .ftStr, [.listHeader]⟩,
    ⟨"Connection", .connection, .ftStr, [.listHeader, .hopByHopHeader]⟩,
    ⟨"Content-Base", .contentBase, .ftStr, []⟩,
    ⟨"Content-Disposition", .contentDisposition, .ftStr, []⟩,
    ⟨"Content-Encoding", .contentEncoding, .ftStr, [.listHeader]⟩,
    ⟨"Content-Language", .contentLanguage, .ftStr, [.listHeader]⟩,
    ⟨"Content-Length", .contentLength, .ftInt64, []⟩,
    ⟨"Content-Location", .contentLocation, .ftStr, []⟩,
    ⟨"Content-MD5", .contentMd5, .ftStr, []⟩,
    ⟨"Content-Range", .contentRange, .ftPContRange, []⟩,
    ⟨"Content-Type", .contentType, .ftStr, []⟩,
    ⟨"Cookie", .cookie, .ftStr, []⟩,
    ⟨"Cookie2", .cookie2, .ftStr, []⟩,
    ⟨"Date", .date, .ftDate1123, []⟩,
    ⟨"ETag", .etag, .ftETag, []⟩,
    ⟨"Expect", .expect, .ftStr, [.listHeader]⟩,
    ⟨"Expires", .expires, .ftDate1123, []⟩,
    ⟨"Forwarded", .forwarded, .ftStr, [.listHeader]⟩,
    ⟨"From", .from_, .ftStr, []⟩,
    ⟨"Host", .host, .ftStr, []⟩,
    ⟨"If-Match", .ifMatch, .ftStr, [.listHeader]⟩,
    ⟨"If-Modified-Since", .ifModifiedSince, .ftDate1123, []⟩,
    ⟨"If-None-Match", .ifNoneMatch, .ftStr, [.listHeader]⟩,
    ⟨"If-Range", .ifRange, .ftDate1123OrETag, []⟩,
    ⟨"If-Unmodified-Since", .ifUnmodifiedSince, .ftDate1123, []⟩,
    ⟨"Keep-Alive", .keepAlive, .ftStr, [.hopByHopHeader]⟩,
    ⟨"Key", .key, .ftStr, [.listHeader]⟩,
    ⟨"Last-Modified", .lastModified, .ftDate1123, []⟩,
    ⟨"Link", .link, .ftStr, [.listHeader]⟩,
    ⟨"Location", .location, .ftStr, []⟩,
    ⟨"Max-Forwards", .maxForwards, .ftInt64, []⟩,
    ⟨"Mime-Version", .mimeVersion, .ftStr, []⟩,
    ⟨"Negotiate", .negotiate, .ftStr, []⟩,
    ⟨"Origin", .origin, .ftStr, []⟩,
    ⟨"Pragma", .pragma, .ftStr, [.listHeader]⟩,
    ⟨"Priority", .priority, .ftStr, [.listHeader]⟩,
    ⟨"Proxy-Authenticate", .proxyAuthenticate, .ftStr, []⟩,
    ⟨"Proxy-Authentication-Info", .proxyAuthenticationInfo, .ftStr, [.listHeader]⟩,
    ⟨"Proxy-Authorization", .proxyAuthorization, .ftStr, [.hopByHopHeader]⟩,
    ⟨"Proxy-Connection", .proxyConnection, .ftStr, [.listHeader, .hopByHopHeader]⟩,
    ⟨"Proxy-support", .proxySupport, .ftStr, [.listHeader]⟩,
    ⟨"Public", .public_, .ftStr, []⟩,
    ⟨"Range", .range, .ftPRange, []⟩,
    ⟨"Referer", .referer, .ftStr, []⟩,
    ⟨"Request-Range", .requestRange, .ftPRange, []⟩,
    ⟨"Retry-After", .retryAfter, .ftStr, []⟩,
    ⟨"Server", .server, .ftStr, []⟩,
    ⟨"Set-Cookie", .setCookie, .ftStr, []⟩,
    ⟨"Set-Cookie2", .setCookie2, .ftStr, []⟩,
    ⟨"TE", .te, .ftStr, [.hopByHopHeader]⟩,
    ⟨"Title", .title, .ftStr, []⟩,
    ⟨"Trailer", .trailer, .ftStr, [.hopByHopHeader]⟩,
    ⟨"Transfer-Encoding", .transferEncoding, .ftStr, [.listHeader, .hopByHopHeader]⟩,
    ⟨"Translate", .translate, .ftStr, []⟩,
    ⟨"Unless-Modified-Since", .unlessModifiedSince, .ftStr, []⟩,
    ⟨"Upgrade", .upgrade, .ftStr, [.listHeader, .hopByHopHeader]⟩,
    ⟨"User-Agent", .userAgent, .ftStr, []⟩,
    ⟨"Vary", .vary, .ftStr, [.listHeader]⟩,
    ⟨"Via", .via, .ftStr, [.listHeader]⟩,
    ⟨"WWW-Authenticate", .wwwAuthenticate, .ftStr, [.listHeader]⟩,
    ⟨"X-Forwarded-For", .xForwardedFor, .ftStr, [.listHeader]⟩,
    ⟨"X-Squid-Error", .xSquidError, .ftStr, []⟩,
    ⟨"X-Accelerator-Vary", .hdrXAcceleratorVary, .ftStr, [.listHeader]⟩,
    ⟨"X-Next-Services", .xNextServices, .ftStr, [.listHeader]⟩,
    ⟨"Surrogate-Capability", .surrogateCapability, .ftStr, [.listHeader]⟩,
    ⟨"Surrogate-Control", .surrogateControl, .ftPSc, [.listHeader]⟩,
    ⟨"Front-End-Https", .frontEndHttps, .ftStr, []⟩,
    ⟨"FTP-Command", .ftpCommand, .ftStr, []⟩,
    ⟨"FTP-Arguments", .ftpArguments, .ftStr, []⟩,
    ⟨"FTP-Pre", .ftpPre, .ftStr, []⟩,
    ⟨"FTP-Status", .ftpStatus, .ftInt, []⟩,
    ⟨"FTP-Reason", .ftpReason, .ftStr, []⟩,
    ⟨"Other:", .other, .ftStr, []⟩,
    ⟨"*INVALID*:", .badHdr, .ftInvalid, []⟩ ]

/-- `HeaderLookupTable.lookup` of an id. -/
def lookup (id : HdrType) : HeaderTableRecord :=
  (headerDefinitionsTable.find? (fun r => r.id = id)).getD badHdrRecord

/-- `HeaderLookupTable.lookup` of a name, which ignores case. -/
def lookupName (name : List UInt8) : HeaderTableRecord :=
  match headerDefinitionsTable.find? (fun r => r.nameBytes.map tolower = name.map tolower) with
  | none => badHdrRecord
  | some r => if r.id = .other then badHdrRecord else r

end RegisteredHeaders
