import PingServer.Net.Handling
import PingServer.Protocol.Check

/-!
# The router

`router.c`: a table of routes, the handlers they lead to, and the cache of open
files behind them.
-/

namespace PingServer

open ByteMem

/-! ## Content types -/

def contentHtml : List Byte := utf8 "text/html; charset=utf-8"
def contentTxt : List Byte := utf8 "text/plain; charset=utf-8"
def contentMd : List Byte := utf8 "text/markdown; charset=utf-8"
def contentCss : List Byte := utf8 "text/css; charset=utf-8"
def contentJs : List Byte := utf8 "text/javascript; charset=utf-8"
def contentJson : List Byte := utf8 "application/json; charset=utf-8"
def contentXml : List Byte := utf8 "application/xml; charset=utf-8"
def contentPng : List Byte := utf8 "image/png"
def contentJpeg : List Byte := utf8 "image/jpeg"
def contentGif : List Byte := utf8 "image/gif"
def contentWebp : List Byte := utf8 "image/webp"
def contentSvg : List Byte := utf8 "image/svg+xml"
def contentIco : List Byte := utf8 "image/x-icon"

def contentTypeTable : List (List Byte × List Byte) :=
  [(utf8 "html", contentHtml), (utf8 "htm", contentHtml), (utf8 "xhtml", contentHtml),
    (utf8 "txt", contentTxt), (utf8 "text", contentTxt), (utf8 "markdown", contentMd),
    (utf8 "md", contentMd), (utf8 "css", contentCss), (utf8 "js", contentJs),
    (utf8 "mjs", contentJs), (utf8 "json", contentJson), (utf8 "xml", contentXml),
    (utf8 "svg", contentSvg), (utf8 "png", contentPng), (utf8 "jpg", contentJpeg),
    (utf8 "jpeg", contentJpeg), (utf8 "gif", contentGif), (utf8 "webp", contentWebp),
    (utf8 "ico", contentIco)]

/-- `ext_eq_ci`, on strings of one length. -/
def extEqCi (a b : List Byte) : Bool := a.map tolower == b.map tolower

/-- Scans back to the last dot, and stops at a slash. -/
def contentTypeByName (name : List Byte) : List Byte :=
  let back := name.reverse
  let ext := (back.takeWhile fun c => c ≠ ch '.' ∧ c ≠ ch '/').reverse
  match back.dropWhile fun c => c ≠ ch '.' ∧ c ≠ ch '/' with
  | c :: _ =>
    if c = ch '.' then
      match contentTypeTable.find? fun entry => ext.length = entry.1.length && extEqCi ext entry.1 with
      | some entry => entry.2
      | none => contentTxt
    else contentTxt
  | [] => contentTxt

/-! ## Open files -/

/-- Put a file into the next slot of the cache and close the one that was there. -/
def cacheFile (h : Handling) (fd : Nat) (name : List Byte) : Handling :=
  let slot := h.cache.cacheIdx
  let old := h.cache.fileCache slot
  let h := if old.str ≠ [] then h.log (.closeFd old.fd) else h
  { h with
    cache := ⟨fun i => if i = slot then ⟨fd, name⟩ else h.cache.fileCache i,
      (slot + 1) % maxCacheCount⟩ }

/-- The slot of the cache that holds `name`. -/
def findCached (cache : RouterCache) (name : List Byte) : Option Nat :=
  (List.range maxCacheCount).find? fun i =>
    (cache.fileCache i).str ≠ [] ∧ (cache.fileCache i).str = name

/-- `get_fd`, where `name` is the string up to its NUL. -/
def getFd (h : Handling) (name : List Byte) : Handling × Int :=
  if name.length = 0 ∨ maxPathLen ≤ name.length then (h, -1)
  else
    match findCached h.cache name with
    | some i => (h, (h.cache.fileCache i).fd)
    | none =>
      let h := h.log (.openFile name h.env.opened)
      match h.env.opened with
      | none => (h, -1)
      | some fd => if h.env.regular then (cacheFile h fd name, fd) else (h.log (.closeFd fd), -1)

/-! ## Handlers -/

def page404 : List Byte :=
  utf8 ("<!DOCTYPE html>" ++
    "<html lang=\"zh-Hans\">" ++
    "<head>" ++
    "   <meta charset=\"UTF-8\">" ++
    "   <title>404 页面未找到</title>" ++
    "   <style>" ++
    "       body \x7b font-family: Arial, sans-serif; text-align: center; margin-top: 50px; \x7d" ++
    "       h1 \x7b color: red; \x7d" ++
    "       a \x7b color: blue; text-decoration: none; \x7d" ++
    "   </style>" ++
    "</head>" ++
    "<body>" ++
    "   <h1>404 - 页面未找到</h1>" ++
    "   <p>抱歉，您访问的页面不存在。</p>" ++
    "   <a href=\"/\">返回首页</a>" ++
    "</body>" ++
    "</html>")

def httpResponseSet (res : HttpResponse) (stCode : Int) (fileName : Option (List Byte)) :
    HttpResponse :=
  match fileName with
  | none => { res with statusCode := stCode, contentType := some contentTxt, body := some page404 }
  | some name =>
    { res with statusCode := stCode, contentType := some (contentTypeByName name), body := none }

/-- Answer with the file, or with an error page if there is none. -/
def respondFile (h : Handling) (ctx : Nat) (fd stCode : Int) (name : List Byte) : Handling :=
  let res := (h.ctxs ctx).httpRes
  if fd < 0 then h.setRes ctx (httpResponseSet res stCode none)
  else h.setRes ctx (httpResponseSet { res with bodyFd := fd } 200 (some name))

/-- Only the response is changed. -/
theorem respondFile_same (h : Handling) (ctx : Nat) (fd stCode : Int) (name : List Byte) :
    (respondFile h ctx fd stCode name).cache = h.cache ∧
      (respondFile h ctx fd stCode name).trace = h.trace := by
  unfold respondFile
  simp only
  split <;> exact ⟨rfl, rfl⟩

def indexPath : List Byte := utf8 "static/index.html"

/-- `ctx` is the address in `conn->protocol_ctx`. -/
def mainHome (h : Handling) (ctx : Nat) : Handling :=
  let (h, fd) := getFd h indexPath
  respondFile h ctx fd 500 indexPath

/-- The string in a buffer, up to its NUL. -/
def cString (buf : List Byte) : List Byte := buf.takeWhile (· ≠ 0)

/-- The path behind its first byte, cut at the first question mark. -/
def staticName (path : List Byte) : List Byte := path.tail.takeWhile (· ≠ ch '?')

def mainStatic (h : Handling) (ctx : Nat) : Handling :=
  let path := (h.ctxs ctx).httpReq.path
  let refuse := fun st => h.setRes ctx (httpResponseSet (h.ctxs ctx).httpRes st none)
  if path.length < 1 ∨ path.head? ≠ some (ch '/') then refuse 400
  else
    let name := staticName path
    if name.length = 0 ∨ maxPathLen ≤ name.length then refuse 400
    else
      let pathBuf := name ++ [0]
      let (h, fd) := getFd h (cString pathBuf)
      respondFile h ctx fd 404 name

def mainNotFound (h : Handling) (ctx : Nat) : Handling :=
  h.setRes ctx (httpResponseSet (h.ctxs ctx).httpRes 404 none)

/-! ## Routes -/

inductive RouterFunction where
  | mainStatic | mainHome | mainNotFound
  deriving DecidableEq, Repr

inductive MatchRule where
  | matchPrefix | matchExact
  deriving DecidableEq, Repr

/-- A row of the table; the method of every row is `MethodGet`. -/
structure Route where
  path : List Byte
  func : RouterFunction
  rule : MatchRule
  deriving DecidableEq, Repr

def routerTable : List Route :=
  [⟨utf8 "/static/", .mainStatic, .matchPrefix⟩, ⟨utf8 "/", .mainHome, .matchExact⟩,
    ⟨[], .mainNotFound, .matchPrefix⟩]

def Route.hit (r : Route) (path : List Byte) : Bool :=
  match r.rule with
  | .matchExact => path == r.path
  | .matchPrefix => r.path.isPrefixOf path

def getRouterFunction (path method : List Byte) : RouterFunction :=
  match routerTable.find? fun r => method == utf8 "GET" && r.hit path with
  | some r => r.func
  | none => .mainNotFound

def RouterFunction.call : RouterFunction → Handling → Nat → Handling
  | .mainStatic => PingServer.mainStatic
  | .mainHome => PingServer.mainHome
  | .mainNotFound => PingServer.mainNotFound

end PingServer
