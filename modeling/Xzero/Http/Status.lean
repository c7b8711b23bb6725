import Xzero.Util.Buffer

/-!
# Status codes

`HttpStatus`, with the code and the text of each.
-/

namespace Xzero.Http

inductive HttpStatus
  | undefined
  | continueRequest | switchingProtocols | processing
  | ok | created | accepted | nonAuthoriativeInformation | noContent | resetContent | partialContent
  | multipleChoices | movedPermanently | found | notModified | temporaryRedirect | permanentRedirect
  | badRequest | unauthorized | paymentRequired | forbidden | notFound | methodNotAllowed
  | notAcceptable | proxyAuthenticationRequired | requestTimeout | conflict | gone | lengthRequired
  | preconditionFailed | payloadTooLarge | requestUriTooLong | unsupportedMediaType
  | requestedRangeNotSatisfiable | expectationFailed | misdirectedRequest | unprocessableEntity
  | locked | failedDependency | unorderedCollection | upgradeRequired | preconditionRequired
  | tooManyRequests | requestHeaderFieldsTooLarge | noResponse | hangup
  | internalServerError | notImplemented | badGateway | serviceUnavailable | gatewayTimeout
  | httpVersionNotSupported | variantAlsoNegotiates | insufficientStorage | loopDetected
  | bandwidthExceeded | notExtended | networkAuthenticationRequired
  deriving DecidableEq, Repr

namespace HttpStatus

/-- `static_cast<int>`. -/
def toInt : HttpStatus → ℕ
  | undefined => 0
  | continueRequest => 100
  | switchingProtocols => 101
  | processing => 102
  | ok => 200
  | created => 201
  | accepted => 202
  | nonAuthoriativeInformation => 203
  | noContent => 204
  | resetContent => 205
  | partialContent => 206
  | multipleChoices => 300
  | movedPermanently => 301
  | found => 302
  | notModified => 304
  | temporaryRedirect => 307
  | permanentRedirect => 308
  | badRequest => 400
  | unauthorized => 401
  | paymentRequired => 402
  | forbidden => 403
  | notFound => 404
  | methodNotAllowed => 405
  | notAcceptable => 406
  | proxyAuthenticationRequired => 407
  | requestTimeout => 408
  | conflict => 409
  | gone => 410
  | lengthRequired => 411
  | preconditionFailed => 412
  | payloadTooLarge => 413
  | requestUriTooLong => 414
  | unsupportedMediaType => 415
  | requestedRangeNotSatisfiable => 416
  | expectationFailed => 417
  | misdirectedRequest => 421
  | unprocessableEntity => 422
  | locked => 423
  | failedDependency => 424
  | unorderedCollection => 425
  | upgradeRequired => 426
  | preconditionRequired => 428
  | tooManyRequests => 429
  | requestHeaderFieldsTooLarge => 431
  | noResponse => 444
  | hangup => 499
  | internalServerError => 500
  | notImplemented => 501
  | badGateway => 502
  | serviceUnavailable => 503
  | gatewayTimeout => 504
  | httpVersionNotSupported => 505
  | variantAlsoNegotiates => 506
  | insufficientStorage => 507
  | loopDetected => 508
  | bandwidthExceeded => 509
  | notExtended => 510
  | networkAuthenticationRequired => 511

/-- `to_string`. -/
def text : HttpStatus → String
  | continueRequest => "Continue Request"
  | switchingProtocols => "Switching Protocols"
  | processing => "Processing"
  | ok => "Ok"
  | created => "Created"
  | accepted => "Accepted"
  | nonAuthoriativeInformation => "Non Authoriative Information"
  | noContent => "No Content"
  | resetContent => "Reset Content"
  | partialContent => "Partial Content"
  | multipleChoices => "Multiple Choices"
  | movedPermanently => "Moved Permanently"
  | found => "Found"
  | notModified => "Not Modified"
  | temporaryRedirect => "Temporary Redirect"
  | permanentRedirect => "Permanent Redirect"
  | badRequest => "Bad Request"
  | unauthorized => "Unauthorized"
  | paymentRequired => "Payment Required"
  | forbidden => "Forbidden"
  | notFound => "Not Found"
  | methodNotAllowed => "Method Not Allowed"
  | notAcceptable => "Not Acceptable"
  | proxyAuthenticationRequired => "Proxy Authentication Required"
  | requestTimeout => "Request Timeout"
  | conflict => "Conflict"
  | gone => "Gone"
  | lengthRequired => "Length Required"
  | preconditionFailed => "Precondition Failed"
  | payloadTooLarge => "Payload Too Large"
  | requestUriTooLong => "Request Uri Too Long"
  | unsupportedMediaType => "Unsupported Media Type"
  | requestedRangeNotSatisfiable => "Requested Range Not Satisfiable"
  | expectationFailed => "Expectation Failed"
  | misdirectedRequest => "Misdirected Request"
  | unprocessableEntity => "Unprocessable Entity"
  | locked => "Locked"
  | failedDependency => "Failed Dependency"
  | unorderedCollection => "Unordered Collection"
  | upgradeRequired => "Upgrade Required"
  | preconditionRequired => "Precondition Required"
  | tooManyRequests => "Too Many Requests"
  | requestHeaderFieldsTooLarge => "Request Header Fields Too Large"
  | internalServerError => "Internal Server Error"
  | notImplemented => "Not Implemented"
  | badGateway => "Bad Gateway"
  | serviceUnavailable => "Service Unavailable"
  | gatewayTimeout => "Gateway Timeout"
  | httpVersionNotSupported => "Http Version Not Supported"
  | variantAlsoNegotiates => "Variant Also Negotiates"
  | insufficientStorage => "Insufficient Storage"
  | loopDetected => "Loop Detected"
  | bandwidthExceeded => "Bandwidth Exceeded"
  | notExtended => "Not Extended"
  | networkAuthenticationRequired => "Network Authentication Required"
  | undefined | noResponse | hangup => ""

def isContentForbidden : HttpStatus → Bool
  | continueRequest | switchingProtocols | noContent | resetContent | notModified | noResponse
  | hangup => true
  | _ => false

/-- A final response that may have content. -/
def permitsContent (status : HttpStatus) : Bool :=
  200 ≤ status.toInt && !status.isContentForbidden

end HttpStatus

end Xzero.Http
