import Mathlib.Algebra.GroupWithZero.Nat
import Mathlib.Data.List.SplitOn
import Mathlib.Data.Char

/-!
# Reading an IRI

The component split of RFC 3986, each component then checked character by character against the
grammar class it may use. Text is a list of characters; offsets in errors count bytes.
-/

namespace Purrdf.Iri

abbrev Text := List Char

def utf8Len (text : Text) : Nat :=
  (text.map Char.utf8Size).sum

/-- RFC 3987, or the ASCII subset of RFC 3986. -/
inductive Mode where
  | iri
  | uri
deriving DecidableEq, Repr

inductive AuthorityError where
  | trailingIpLiteral
  | unterminatedIpLiteral
  | ipvFutureVersion (offset : Nat)
  | ipvFutureEmpty (offset : Nat)
  | invalidIpv6 (offset : Nat) (address : Text)
deriving DecidableEq, Repr

inductive IriError where
  | empty
  | missingScheme
  | badScheme (scheme : Text)
  | badPercentEncoding (offset : Nat)
  | disallowedChar (c : Char) (offset : Nat)
  | badAuthority (error : AuthorityError)
  | nonAbsoluteBase (base : Text)
deriving DecidableEq, Repr

/-! ### Character classes -/

def isHexDigit (c : Char) : Bool :=
  c.isDigit || ('a' ≤ c && c ≤ 'f') || ('A' ≤ c && c ≤ 'F')

def unreserved (c : Char) : Bool :=
  c.isAlphanum || c == '-' || c == '.' || c == '_' || c == '~'

def subDelims (c : Char) : Bool :=
  "!$&'()*+,;=".toList.contains c

def schemeTail (c : Char) : Bool :=
  c.isAlphanum || c == '+' || c == '-' || c == '.'

def inRange (c : Char) (low high : Nat) : Bool :=
  low ≤ c.toNat && c.toNat ≤ high

def isUcschar (c : Char) : Bool :=
  inRange c 0xA0 0xD7FF || inRange c 0xF900 0xFDCF || inRange c 0xFDF0 0xFFEF ||
  inRange c 0x10000 0x1FFFD || inRange c 0x20000 0x2FFFD || inRange c 0x30000 0x3FFFD ||
  inRange c 0x40000 0x4FFFD || inRange c 0x50000 0x5FFFD || inRange c 0x60000 0x6FFFD ||
  inRange c 0x70000 0x7FFFD || inRange c 0x80000 0x8FFFD || inRange c 0x90000 0x9FFFD ||
  inRange c 0xA0000 0xAFFFD || inRange c 0xB0000 0xBFFFD || inRange c 0xC0000 0xCFFFD ||
  inRange c 0xD0000 0xDFFFD || inRange c 0xE1000 0xEFFFD

def isIprivate (c : Char) : Bool :=
  inRange c 0xE000 0xF8FF || inRange c 0xF0000 0xFFFFD || inRange c 0x100000 0x10FFFD

def iriExtraOk (c : Char) (allowIprivate : Bool) (mode : Mode) : Bool :=
  match mode with
  | .uri => false
  | .iri => isUcschar c || (allowIprivate && isIprivate c)

/-- What a component admits beyond `unreserved`, `sub-delims` and percent-encoding. -/
structure Extras where
  ascii : List Char
  iprivate : Bool
deriving DecidableEq, Repr

def Extras.path : Extras := ⟨[':', '@', '/'], false⟩
def Extras.query : Extras := ⟨[':', '@', '/', '?'], true⟩
def Extras.fragment : Extras := ⟨[':', '@', '/', '?'], false⟩
def Extras.userinfo : Extras := ⟨[':'], false⟩
def Extras.regName : Extras := ⟨[], false⟩

def Extras.admits (extras : Extras) (mode : Mode) (c : Char) : Bool :=
  if c.toNat < 0x80 then unreserved c || subDelims c || extras.ascii.contains c
  else iriExtraOk c extras.iprivate mode

def validateComponent (extras : Extras) (mode : Mode) : Text → Nat → Except IriError Unit
  | [], _ => .ok ()
  | '%' :: high :: low :: rest, offset =>
    if isHexDigit high && isHexDigit low then validateComponent extras mode rest (offset + 3)
    else .error (.badPercentEncoding offset)
  | c :: rest, offset =>
    if c == '%' then .error (.badPercentEncoding offset)
    else if extras.admits mode c then validateComponent extras mode rest (offset + c.utf8Size)
    else .error (.disallowedChar c offset)

def validateScheme (scheme : Text) : Except IriError Unit :=
  match scheme with
  | [] => .error .missingScheme
  | first :: rest =>
    if first.isAlpha && rest.all schemeTail then .ok () else .error (.badScheme scheme)

/-! ### Hosts -/

/-- `dec-octet`: no leading zero. -/
def isDecOctet (octet : Text) : Bool :=
  octet.all Char.isDigit && (
    match octet with
    | [_] => true
    | ['2', '5', c] => c ≤ '5'
    | ['2', b, _] => b ≤ '4'
    | ['1', _, _] => true
    | [a, _] => a != '0'
    | _ => false)

def isIpv4Address (text : Text) : Bool :=
  (text.splitOn '.').length == 4 && (text.splitOn '.').all isDecOctet

def isHexGroup (piece : Text) : Bool :=
  1 ≤ piece.length && piece.length ≤ 4 && piece.all isHexDigit

/-- The 16-bit groups between colons, the last two possibly as an `IPv4address`. -/
def groupCount (allowIpv4 : Bool) : List Text → Option Nat
  | [] => some 0
  | [piece] =>
    if isHexGroup piece then some 1
    else if allowIpv4 && isIpv4Address piece then some 2
    else none
  | piece :: rest => if isHexGroup piece then (groupCount allowIpv4 rest).map (· + 1) else none

def groupsOf (allowIpv4 : Bool) (text : Text) : Option Nat :=
  if text = [] then some 0 else groupCount allowIpv4 (text.splitOn ':')

/-- What stands on the two sides of the first `::`. -/
def splitDouble : Text → Option (Text × Text)
  | [] => none
  | ':' :: ':' :: rest => some ([], rest)
  | c :: rest => (splitDouble rest).map fun (head, tail) => (c :: head, tail)

/-- Eight groups, or fewer around one `::`. -/
def isIpv6Address (text : Text) : Bool :=
  match splitDouble text with
  | none => groupsOf true text == some 8
  | some (head, tail) =>
    match groupsOf false head, groupsOf true tail with
    | some first, some second => first + second ≤ 7
    | _, _ => false

def isIpvFutureAddressChar (c : Char) : Bool :=
  unreserved c || subDelims c || c == ':'

def requireAll (class_ : Char → Bool) : Text → Nat → Except IriError Unit
  | [], _ => .ok ()
  | c :: rest, offset =>
    if class_ c then requireAll class_ rest (offset + c.utf8Size)
    else .error (.disallowedChar c offset)

def validateIpLiteral (inner : Text) (offset : Nat) : Except IriError Unit :=
  match inner with
  | first :: tail =>
    if first == 'v' || first == 'V' then
      let version := tail.takeWhile (· != '.')
      match tail.dropWhile (· != '.') with
      | [] => .error (.badAuthority (.ipvFutureVersion offset))
      | _ :: address =>
        if version = [] ∨ address = [] then .error (.badAuthority (.ipvFutureEmpty offset))
        else do
          requireAll isHexDigit version (offset + 1)
          requireAll isIpvFutureAddressChar address (offset + utf8Len version + 2)
    else if isIpv6Address inner then .ok ()
    else .error (.badAuthority (.invalidIpv6 offset inner))
  | [] => .error (.badAuthority (.invalidIpv6 offset inner))

def bracketed (text : Text) : Option Text :=
  match text with
  | '[' :: rest => if rest.getLast? = some ']' then some rest.dropLast else none
  | _ => none

def validateHost (mode : Mode) (host : Text) (offset : Nat) : Except IriError Unit :=
  match bracketed host with
  | some inner => validateIpLiteral inner (offset + 1)
  | none => validateComponent .regName mode host offset

/-- The host, and the port with its offset behind the host's first byte. -/
def splitPort (rest : Text) : Except IriError (Text × Option (Text × Nat)) :=
  match rest with
  | '[' :: _ =>
    let inside := rest.takeWhile (· != ']')
    match rest.dropWhile (· != ']') with
    | [] => .error (.badAuthority .unterminatedIpLiteral)
    | close :: after =>
      let host := inside ++ [close]
      match after with
      | [] => .ok (host, none)
      | ':' :: port => .ok (host, some (port, utf8Len inside + 2))
      | _ => .error (.badAuthority .trailingIpLiteral)
  | _ =>
    -- the last colon splits off the port
    let port := (rest.reverse.takeWhile (· != ':')).reverse
    match rest.reverse.dropWhile (· != ':') with
    | [] => .ok (rest, none)
    | _ :: host => .ok (host.reverse, some (port, utf8Len host + 1))

def validateAuthority (mode : Mode) (authority : Text) (offset : Nat) : Except IriError Unit :=
  let before := authority.takeWhile (· != '@')
  let (userinfo, rest, hostOffset) :=
    match authority.dropWhile (· != '@') with
    | [] => (none, authority, offset)
    | _ :: rest => (some before, rest, offset + utf8Len before + 1)
  do
    match userinfo with
    | none => pure ()
    | some userinfo => validateComponent .userinfo mode userinfo offset
    let (host, port) ← splitPort rest
    validateHost mode host hostOffset
    match port with
    | none => return ()
    | some (port, portOffset) => requireAll Char.isDigit port (hostOffset + portOffset)

/-! ### The split -/

structure Parts where
  scheme : Option Text
  authority : Option Text
  path : Text
  query : Option Text
  fragment : Option Text
deriving DecidableEq, Repr

structure Iri where
  text : Text
  parts : Parts
deriving DecidableEq, Repr

def schemeEnd (c : Char) : Bool :=
  c == ':' || c == '/' || c == '?' || c == '#'

def authorityEnd (c : Char) : Bool :=
  c == '/' || c == '?' || c == '#'

def pathEnd (c : Char) : Bool :=
  c == '?' || c == '#'

/-! Each step returns a component, what follows it, and the offset there. -/

def scanScheme (text : Text) : Except IriError (Option Text × Text × Nat) :=
  let scheme := text.takeWhile (!schemeEnd ·)
  if text.head?.any Char.isAlpha then
    match text.dropWhile (!schemeEnd ·) with
    | ':' :: rest => do
      validateScheme scheme
      return (some scheme, rest, utf8Len scheme + 1)
    | _ => .ok (none, text, 0)
  else .ok (none, text, 0)

def scanAuthority (mode : Mode) (text : Text) (offset : Nat) :
    Except IriError (Option Text × Text × Nat) :=
  match text with
  | '/' :: '/' :: tail => do
    let authority := tail.takeWhile (!authorityEnd ·)
    validateAuthority mode authority (offset + 2)
    return (some authority, tail.dropWhile (!authorityEnd ·), offset + 2 + utf8Len authority)
  | _ => .ok (none, text, offset)

/-- A reference without scheme and authority has no colon in its first segment. -/
def checkNoScheme (relative : Bool) (path : Text) (offset : Nat) : Except IriError Unit :=
  let first := path.takeWhile (· != '/')
  if relative ∧ ':' ∈ first then .error (.disallowedChar ':' (offset + utf8Len (first.takeWhile (· != ':'))))
  else .ok ()

def scanPath (mode : Mode) (relative : Bool) (text : Text) (offset : Nat) :
    Except IriError (Text × Text × Nat) := do
  let path := text.takeWhile (!pathEnd ·)
  validateComponent .path mode path offset
  checkNoScheme relative path offset
  return (path, text.dropWhile (!pathEnd ·), offset + utf8Len path)

def scanQuery (mode : Mode) (text : Text) (offset : Nat) :
    Except IriError (Option Text × Text × Nat) :=
  match text with
  | '?' :: tail => do
    let query := tail.takeWhile (· != '#')
    validateComponent .query mode query (offset + 1)
    return (some query, tail.dropWhile (· != '#'), offset + 1 + utf8Len query)
  | _ => .ok (none, text, offset)

def scanFragment (mode : Mode) (text : Text) (offset : Nat) : Except IriError (Option Text) :=
  match text with
  | '#' :: fragment => do
    validateComponent .fragment mode fragment (offset + 1)
    return some fragment
  | _ => .ok none

def scan (mode : Mode) (text : Text) : Except IriError Parts :=
  if text = [] then .error .empty
  else do
    let (scheme, rest, offset) ← scanScheme text
    let (authority, rest, offset) ← scanAuthority mode rest offset
    let (path, rest, offset) ←
      scanPath mode (scheme.isNone && authority.isNone) rest offset
    let (query, rest, offset) ← scanQuery mode rest offset
    let fragment ← scanFragment mode rest offset
    return { scheme, authority, path, query, fragment }

def parseInner (mode : Mode) (text : Text) : Except IriError Iri := do
  let parts ← scan mode text
  return { text, parts }

def parse (text : Text) : Except IriError Iri :=
  parseInner .iri text

end Purrdf.Iri
