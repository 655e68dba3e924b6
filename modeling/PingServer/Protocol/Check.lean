import PingServer.Protocol.Message
import Mathlib.Data.Nat.Digits.Defs

/-!
# The request check

`http_protcol_check` and what it is made of. The functions of `ctype.h` are
those of the C locale. The check looks at the first header of a name only, and
at `Transfer-Encoding` only next to a `Content-Length`: `check_no_body_iff` says
which requests get past it with a body.
-/

namespace PingServer

open ByteMem

/-- The byte of a character literal. -/
abbrev ch (c : Char) : Byte := BitVec.ofNat 8 c.toNat

/-! ## Characters -/

def inRange (lo hi c : Byte) : Bool := decide (lo ≤ c ∧ c ≤ hi)

def isdigit (c : Byte) : Bool := inRange (ch '0') (ch '9') c

def isxdigit (c : Byte) : Bool :=
  isdigit c || inRange (ch 'A') (ch 'F') c || inRange (ch 'a') (ch 'f') c

def isalnum (c : Byte) : Bool :=
  inRange (ch 'A') (ch 'Z') c || inRange (ch 'a') (ch 'z') c || isdigit c

def tolower (c : Byte) : Byte := if inRange (ch 'A') (ch 'Z') c then c + 32 else c

def isValidPathChar (c : Byte) : Bool :=
  isalnum c || (utf8 "-_~./%?&=:@!$'()*+,;#").contains c

/-- `strchr` also finds the byte that ends its string. -/
def isTokenChar (c : Byte) : Bool :=
  isalnum c || (0 :: utf8 "!#$%&'*+-.^_`|~").contains c

/-! ## Paths -/

/-- The loop of `is_safe_path`; `prev` is the byte before, if there is one. -/
def safeLoop : (prev : Option Byte) → List Byte → Bool
  | _, [] => true
  | prev, c :: rest =>
    if c < 0x20 ∨ c = 0x7f then false
    else if isValidPathChar c = false then false
    else if c = ch '.' ∧ prev = some (ch '.') then false
    else if c = ch '%' then
      match rest with
      | hi :: lo :: rest => if isxdigit hi && isxdigit lo then safeLoop (some lo) rest else false
      | _ => false
    else safeLoop (some c) rest

def isSafePath (p : List Byte) : Bool :=
  if p.length = 0 ∨ 2048 < p.length then false
  else if p.head? ≠ some (ch '/') then false
  else safeLoop none p

/-! ## Headers -/

/-- Both have the same length where it is called. -/
def ciEqual (a b : List Byte) : Bool := a.map tolower == b.map tolower

def sameName (name : List Byte) (h : PhrHeader) : Bool :=
  decide (h.name.length = name.length) && ciEqual h.name name

/-- The index of the first header of that name; -1 is `none`. -/
def findHeader (req : HttpRequest) (name : List Byte) : Option Nat :=
  req.headers.findIdx? (sameName name)

/-- Eighteen digits do not overflow a `long`. -/
def parseContentLength (s : List Byte) : Int :=
  if s.length = 0 ∨ 18 < s.length then -1
  else if s.all isdigit then
    let v : Nat := s.foldl (fun v c => v * 10 + (c.toNat - (ch '0').toNat)) 0
    v
  else -1

def nameValid (h : PhrHeader) : Bool := h.name ≠ [] && h.name.all isTokenChar

def contentLength : List Byte := utf8 "Content-Length"
def transferEncoding : List Byte := utf8 "Transfer-Encoding"

/-- `http_protcol_check` on the context of a connection. -/
def httpProtcolCheck (ctx : Option HttpContext) : Int :=
  match ctx with
  | none => errorHttpParse
  | some ctx =>
    let req := ctx.httpReq
    if req.minorVersion ≠ 0 ∧ req.minorVersion ≠ 1 then errorHttpParse
    else if req.minorVersion = 1 ∧ findHeader req (utf8 "Host") = none then errorHttpParse
    else if req.method ≠ utf8 "GET" then errorHttpParse
    else if isSafePath req.path = false then errorHttpParse
    else if req.headers.all nameValid = false then errorHttpParse
    else
      let clIdx := findHeader req contentLength
      let teIdx := findHeader req transferEncoding
      if clIdx.isSome ∧ teIdx.isSome then errorHttpParse
      else if clIdx.any (fun i => parseContentLength (req.headers.getD i ⟨[], []⟩).value ≠ 0) then
        errorHttpParse
      else if req.bodyLen ≠ 0 then errorHttpParse
      else 0

/-! ## Safe paths -/

/-- No two adjacent bytes are dots. -/
def NoDotDot (p : List Byte) : Prop := p.IsChain fun a b => ¬ (a = ch '.' ∧ b = ch '.')

theorem noDotDot_cons_cons {a b : Byte} {p : List Byte} :
    NoDotDot (a :: b :: p) ↔ ¬ (a = ch '.' ∧ b = ch '.') ∧ NoDotDot (b :: p) :=
  List.isChain_cons_cons

theorem isxdigit_valid {c : Byte} (h : isxdigit c = true) : isValidPathChar c = true := by
  simp only [isxdigit, isValidPathChar, isalnum, isdigit, inRange] at h ⊢
  simp only [Bool.or_eq_true, decide_eq_true_eq, BitVec.le_def] at h ⊢
  left
  simp at h ⊢
  omega

theorem isxdigit_not_dot {c : Byte} (h : isxdigit c = true) : c ≠ ch '.' := by
  rintro rfl
  exact absurd h (by decide)

theorem safeLoop_valid (prev : Option Byte) (p : List Byte) (h : safeLoop prev p = true) :
    ∀ c ∈ p, isValidPathChar c = true := by
  fun_induction safeLoop prev p with
  | case1 prev => simp
  | case5 prev hi lo rest hhex _ hvalid _ ih =>
    rw [Bool.and_eq_true] at hhex
    simpa [isxdigit_valid hhex.1, isxdigit_valid hhex.2, Bool.of_not_eq_false hvalid] using ih h
  | case8 prev c rest _ hvalid _ _ ih => simpa [Bool.of_not_eq_false hvalid] using ih h
  | _ => cases h

/-- A dot is never next to the byte the loop has seen before it, or skipped. -/
theorem safeLoop_noDotDot (prev : Option Byte) (p : List Byte) (h : safeLoop prev p = true) :
    NoDotDot (prev.toList ++ p) := by
  fun_induction safeLoop prev p with
  | case1 prev => cases prev <;> simp [NoDotDot]
  | case5 prev hi lo rest hhex _ _ _ ih =>
    rw [Bool.and_eq_true] at hhex
    have hhi := isxdigit_not_dot hhex.1
    have hlo := isxdigit_not_dot hhex.2
    have hpercent : ch '%' ≠ ch '.' := by decide
    have hrest : NoDotDot (lo :: rest) := ih h
    have hescape : NoDotDot (ch '%' :: hi :: lo :: rest) :=
      noDotDot_cons_cons.2 ⟨fun hd => hpercent hd.1, noDotDot_cons_cons.2 ⟨fun hd => hhi hd.1, hrest⟩⟩
    cases prev with
    | none => exact hescape
    | some b => exact noDotDot_cons_cons.2 ⟨fun hd => hpercent hd.2, hescape⟩
  | case8 prev c rest _ _ hdots _ ih =>
    have hrest : NoDotDot (c :: rest) := ih h
    cases prev with
    | none => exact hrest
    | some b => exact noDotDot_cons_cons.2 ⟨fun hd => hdots ⟨hd.2, by rw [hd.1]⟩, hrest⟩
  | _ => cases h

theorem isSafePath_spec {p : List Byte} (h : isSafePath p = true) :
    p.length ≤ 2048 ∧ p.head? = some (ch '/') ∧ (∀ c ∈ p, isValidPathChar c = true) ∧ NoDotDot p := by
  unfold isSafePath at h
  split at h
  · cases h
  · split at h
    · cases h
    · rename_i hlen hhead
      exact ⟨by omega, not_not.1 hhead, safeLoop_valid none p h, safeLoop_noDotDot none p h⟩

/-! ## What an accepted request carries -/

/-- The number that a string of decimal digits denotes. -/
def decimalValue (s : List Byte) : Nat :=
  Nat.ofDigits 10 (s.reverse.map fun c => c.toNat - (ch '0').toNat)

/-- One to eighteen digits that denote 0. -/
def ZeroLength (s : List Byte) : Prop :=
  1 ≤ s.length ∧ s.length ≤ 18 ∧ (∀ c ∈ s, isdigit c = true) ∧ decimalValue s = 0

instance (s : List Byte) : Decidable (ZeroLength s) := by
  unfold ZeroLength
  infer_instance

/-- No header announces a body. -/
structure NoBody (req : HttpRequest) : Prop where
  encoding : ∀ h ∈ req.headers, sameName transferEncoding h = false
  length : ∀ h ∈ req.headers, sameName contentLength h = true → ZeroLength h.value

/-- Everything that is checked but the headers of a body. -/
structure PassesOtherChecks (req : HttpRequest) : Prop where
  version : req.minorVersion = 0 ∨ req.minorVersion = 1
  host : req.minorVersion = 1 → ∃ h ∈ req.headers, sameName (utf8 "Host") h = true
  method : req.method = utf8 "GET"
  path : isSafePath req.path = true
  names : ∀ h ∈ req.headers, nameValid h = true
  bodyLen : req.bodyLen = 0

/-- A transfer encoding without a content length. -/
def EncodingAlone (req : HttpRequest) : Prop :=
  (∃ h ∈ req.headers, sameName transferEncoding h = true) ∧ findHeader req contentLength = none

/-- The first content length is 0, and another one is not. -/
def OtherLength (req : HttpRequest) : Prop :=
  findHeader req transferEncoding = none ∧
    ∃ i, findHeader req contentLength = some i ∧
      ZeroLength (req.headers.getD i ⟨[], []⟩).value ∧
      ∃ h ∈ req.headers, sameName contentLength h = true ∧ ¬ ZeroLength h.value

theorem foldl_decimal (s : List Byte) :
    s.foldl (fun v c => v * 10 + (c.toNat - (ch '0').toNat)) 0 = decimalValue s := by
  rw [decimalValue, Nat.ofDigits_eq_foldr, List.foldr_map, List.foldr_reverse]
  congr 1
  funext v c
  simp only [Nat.cast_id]
  omega

theorem parseContentLength_eq_zero {s : List Byte} : parseContentLength s = 0 ↔ ZeroLength s := by
  unfold parseContentLength ZeroLength
  simp only [foldl_decimal]
  by_cases hlen : s.length = 0 ∨ 18 < s.length
  · rw [if_pos hlen]
    constructor
    · intro h
      cases h
    · intro h
      omega
  · rw [if_neg hlen]
    by_cases hdigits : s.all isdigit = true
    · rw [if_pos hdigits, Int.natCast_eq_zero]
      constructor
      · intro h
        exact ⟨by omega, by omega, List.all_eq_true.1 hdigits, h⟩
      · rintro ⟨_, _, _, h⟩
        exact h
    · rw [if_neg hdigits]
      constructor
      · intro h
        cases h
      · rintro ⟨_, _, h, _⟩
        exact absurd (List.all_eq_true.2 h) hdigits

theorem findHeader_eq_none {req : HttpRequest} {name : List Byte} :
    findHeader req name = none ↔ ∀ h ∈ req.headers, sameName name h = false :=
  List.findIdx?_eq_none_iff

theorem findHeader_isSome {req : HttpRequest} {name : List Byte} :
    (findHeader req name).isSome = true ↔ ∃ h ∈ req.headers, sameName name h = true := by
  rw [findHeader, List.findIdx?_isSome, List.any_eq_true]

theorem unless_refused {c : Prop} [Decidable c] {x : Int} :
    (if c then errorHttpParse else x) = 0 ↔ ¬ c ∧ x = 0 := by
  split
  · rename_i hc
    exact ⟨fun h => absurd h (by decide), fun h => absurd hc h.1⟩
  · rename_i hc
    exact ⟨fun h => ⟨hc, h⟩, fun h => h.2⟩

theorem lengthRefused_iff {req : HttpRequest} {idx : Option Nat} :
    ¬ idx.any (fun i => decide (parseContentLength (req.headers.getD i ⟨[], []⟩).value ≠ 0)) = true ↔
      ∀ i, idx = some i → ZeroLength (req.headers.getD i ⟨[], []⟩).value := by
  cases idx with
  | none => simp
  | some i => simp [parseContentLength_eq_zero]

/-- What a request has passed once it is accepted. -/
theorem httpProtcolCheck_eq_zero {ctx : HttpContext} : httpProtcolCheck (some ctx) = 0 ↔
    PassesOtherChecks ctx.httpReq ∧
      ¬ ((findHeader ctx.httpReq contentLength).isSome = true ∧
        (findHeader ctx.httpReq transferEncoding).isSome = true) ∧
      ∀ i, findHeader ctx.httpReq contentLength = some i →
        ZeroLength (ctx.httpReq.headers.getD i ⟨[], []⟩).value := by
  simp only [httpProtcolCheck, unless_refused, lengthRefused_iff]
  constructor
  · rintro ⟨hversion, hhost, hmethod, hpath, hnames, hboth, hzero, hbody, -⟩
    refine ⟨⟨by omega, fun hv => ?_, not_not.1 hmethod, by simpa using hpath, by simpa using hnames,
      not_not.1 hbody⟩, hboth, hzero⟩
    rw [← findHeader_isSome, ← Option.ne_none_iff_isSome]
    exact fun hnone => hhost ⟨hv, hnone⟩
  · rintro ⟨⟨hversion, hhost, hmethod, hpath, hnames, hbody⟩, hboth, hzero⟩
    refine ⟨by omega, ?_, not_not.2 hmethod, by simpa using hpath, by simpa using hnames, hboth,
      hzero, not_not.2 hbody, trivial⟩
    rintro ⟨hv, hnone⟩
    have hsome := findHeader_isSome.2 (hhost hv)
    rw [hnone] at hsome
    cases hsome

/-- An accepted request carries no body, unless it passes all other checks with a
lone transfer encoding or a second content length. -/
theorem check_no_body_iff (ctx : HttpContext) :
    (httpProtcolCheck (some ctx) = 0 → NoBody ctx.httpReq) ↔
      (PassesOtherChecks ctx.httpReq → ¬ EncodingAlone ctx.httpReq ∧ ¬ OtherLength ctx.httpReq) := by
  rw [httpProtcolCheck_eq_zero]
  generalize ctx.httpReq = req
  constructor
  · intro h hother
    constructor
    · rintro ⟨⟨x, hx, hte⟩, hcl⟩
      have hbody := h ⟨hother, by simp [hcl], by simp [hcl]⟩
      exact absurd (hbody.encoding x hx) (by simp [hte])
    · rintro ⟨hte, i, hcl, hfirst, x, hx, hname, hvalue⟩
      have hbody := h ⟨hother, by simp [hte], by simpa [hcl] using hfirst⟩
      exact hvalue (hbody.length x hx hname)
  · rintro h ⟨hother, hboth, hfirst⟩
    obtain ⟨halone, hlater⟩ := h hother
    have hencoding : ∀ x ∈ req.headers, sameName transferEncoding x = false := by
      intro x hx
      by_contra hte
      have hte := Bool.of_not_eq_false hte
      refine halone ⟨⟨x, hx, hte⟩, ?_⟩
      by_contra hcl
      exact hboth ⟨Option.isSome_iff_ne_none.2 hcl, findHeader_isSome.2 ⟨x, hx, hte⟩⟩
    refine ⟨hencoding, fun x hx hname => ?_⟩
    by_contra hvalue
    obtain ⟨i, hi⟩ := Option.isSome_iff_exists.1 (findHeader_isSome.2 ⟨x, hx, hname⟩)
    exact hlater ⟨findHeader_eq_none.2 hencoding, i, hi, hfirst i hi, x, hx, hname, hvalue⟩

/-- `GET / HTTP/1.1` with a host and a chunked body. -/
def chunkedGet : HttpContext where
  httpReq :=
    { method := utf8 "GET", path := utf8 "/", bodyLen := 0, lastLen := 0, minorVersion := 1
      headers := [⟨utf8 "Host", utf8 "a"⟩, ⟨transferEncoding, utf8 "chunked"⟩] }
  httpRes := HttpContext.zero.httpRes

theorem chunkedGet_accepted : httpProtcolCheck (some chunkedGet) = 0 ∧ ¬ NoBody chunkedGet.httpReq := by
  refine ⟨by decide +kernel, fun h => ?_⟩
  have hte := h.encoding ⟨transferEncoding, utf8 "chunked"⟩ (by simp [chunkedGet])
  exact absurd hte (by decide +kernel)

end PingServer
