import LlvmBootstrap.Sources.Error

/-!
Downloading a file. Redirections are followed a limited number of times; any final answer but a
success is an error.
-/

namespace LlvmBootstrap.Download

/-- The standard's words for the codes of answers. -/
def reasons : List (Nat × String) :=
  [(100, "Continue"), (101, "Switching Protocols"), (102, "Processing"), (103, "Early Hints"),
    (200, "OK"), (201, "Created"), (202, "Accepted"), (203, "Non Authoritative Information"),
    (204, "No Content"), (205, "Reset Content"), (206, "Partial Content"),
    (207, "Multi-Status"),
    (208, "Already Reported"), (226, "IM Used"), (300, "Multiple Choices"),
    (301, "Moved Permanently"), (302, "Found"), (303, "See Other"), (304, "Not Modified"),
    (305, "Use Proxy"), (307, "Temporary Redirect"), (308, "Permanent Redirect"),
    (400, "Bad Request"), (401, "Unauthorized"), (402, "Payment Required"), (403, "Forbidden"),
    (404, "Not Found"), (405, "Method Not Allowed"), (406, "Not Acceptable"),
    (407, "Proxy Authentication Required"), (408, "Request Timeout"), (409, "Conflict"),
    (410, "Gone"), (411, "Length Required"), (412, "Precondition Failed"),
    (413, "Payload Too Large"), (414, "URI Too Long"), (415, "Unsupported Media Type"),
    (416, "Range Not Satisfiable"), (417, "Expectation Failed"), (418, "I'm a teapot"),
    (421, "Misdirected Request"), (422, "Unprocessable Entity"), (423, "Locked"),
    (424, "Failed Dependency"), (425, "Too Early"), (426, "Upgrade Required"),
    (428, "Precondition Required"), (429, "Too Many Requests"),
    (431, "Request Header Fields Too Large"), (451, "Unavailable For Legal Reasons"),
    (500, "Internal Server Error"), (501, "Not Implemented"), (502, "Bad Gateway"),
    (503, "Service Unavailable"), (504, "Gateway Timeout"),
    (505, "HTTP Version Not Supported"),
    (506, "Variant Also Negotiates"), (507, "Insufficient Storage"), (508, "Loop Detected"),
    (510, "Not Extended"), (511, "Network Authentication Required")]

def statusText (code : Nat) : String :=
  toString code ++ " " ++ (reasons.lookup code).getD "<unknown status code>"

def maxRedirects : Nat := 10

def isRedirect (code : Nat) : Bool := [301, 302, 303, 307, 308].contains code

/-- An error about one address, as it is told. -/
def about (what : String) (url : Url) : String := what ++ " for url (" ++ url.text ++ ")"

/-- The final answer to a request. A redirection without a place to go is final. -/
def request (url : Url) : Nat → Attempt String Response
  | 0 => throw (about "error following redirect" url)
  | left + 1 => do
    if !url.isFetchable then throw (about "builder error" url)
    match ← make (.send url) with
    | .error () => throw (about "error sending request" url)
    | .ok r =>
      match if isRedirect r.status then r.location.bind url.resolve? else none with
      | some next => request next left
      | none => return r

/-- The file at an address, or what is told of why there is none. -/
def body (address : String) : Attempt String Bytes := do
  let some url := Url.ofText? address | throw "builder error"
  let r ← request url (maxRedirects + 1)
  if 200 ≤ r.status ∧ r.status < 300 then return r.body
  else throw ("HTTP " ++ statusText r.status)

end LlvmBootstrap.Download

namespace LlvmBootstrap

/-- Downloads a file. -/
def download (address : String) : Attempt SourceError Bytes := do
  make (.log .info "downloading sources")
  let file ← (Download.body address).adapt (.transfer address)
  make (.log .info "download complete")
  return file

end LlvmBootstrap
