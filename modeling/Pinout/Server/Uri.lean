import Pinout.File.Path
import Pinout.Text.Bytes

/-!
# Pinout.Server.Uri

The addresses of documents. An address is read into its parts and written in one normal form: the
scheme in lower case, characters that must not stand in a part percent-encoded, the names `.` and
`..` resolved, and the default port left out. Hosts are ASCII names or numbers of 32 bits.
-/

namespace Pinout

inductive UriPath where
  | opaquePath (t : Text)
  | segments (ss : List Text)
  deriving DecidableEq, Repr

structure Uri where
  scheme : Text
  userinfo : Text
  host : Option Text
  port : Option Nat
  path : UriPath
  query : Option Text
  fragment : Option Text
  deriving DecidableEq, Repr

namespace Uri

inductive Fault where
  | noScheme
  | emptyHost
  | invalidHost
  | invalidPort
  deriving DecidableEq, Repr

def Fault.message : Fault → Text
  | noScheme => "relative URL without a base".toList
  | emptyHost => "empty host".toList
  | invalidHost => "invalid international domain name".toList
  | invalidPort => "invalid port number".toList

/-! ## Percent encoding -/

def upperHex (n : Nat) : Char := if n < 10 then Text.digit n else Char.ofNat ('A'.toNat + n - 10)

def encodeByte (b : UInt8) : Text := ['%', upperHex (b.toNat / 16), upperHex (b.toNat % 16)]

/-- Encodes control characters, all characters beyond ASCII, and those of `reserved`. -/
def encode (reserved : Text) (t : Text) : Text :=
  t.flatMap fun c =>
    if c.toNat < 0x20 ∨ 0x7F ≤ c.toNat ∨ c ∈ reserved then
      (String.utf8EncodeChar c).flatMap encodeByte
    else [c]

def fragmentReserved : Text := " \"<>`".toList

def pathReserved : Text := fragmentReserved ++ "#?\x7b\x7d".toList

def userReserved : Text := pathReserved ++ "/:;=@[\\]^|".toList

def queryReserved (special : Bool) : Text := " \"#<>".toList ++ if special then ['\''] else []

def hexDigit? (c : Char) : Option Nat :=
  if c.isDigit then some (c.toNat - '0'.toNat)
  else if 'a' ≤ c ∧ c ≤ 'f' then some (c.toNat - 'a'.toNat + 10)
  else if 'A' ≤ c ∧ c ≤ 'F' then some (c.toNat - 'A'.toNat + 10)
  else none

/-- The bytes that a text stands for; a percent sign without two digits is itself. -/
def decodeBytes : Text → List UInt8
  | [] => []
  | [a] => String.utf8EncodeChar a
  | [a, b] => String.utf8EncodeChar a ++ String.utf8EncodeChar b
  | a :: b :: c :: t =>
    match if a = '%' then hexDigit? b else none, hexDigit? c with
    | some high, some low => UInt8.ofNat (16 * high + low) :: decodeBytes t
    | _, _ => String.utf8EncodeChar a ++ decodeBytes (b :: c :: t)

/-! ## Reading -/

/-- The port that a scheme with a host needs not to name. -/
def defaultPort? (scheme : Text) : Option Nat :=
  match String.ofList scheme with
  | "http" | "ws" => some 80
  | "https" | "wss" => some 443
  | "ftp" => some 21
  | _ => none

def isFile (scheme : Text) : Bool := scheme == "file".toList

def isSpecial (scheme : Text) : Bool := isFile scheme || (defaultPort? scheme).isSome

/-- Whether a character separates the segments of a path. -/
def isSlash (special : Bool) (c : Char) : Bool := c == '/' || (special && c == '\\')

def isSchemeChar (c : Char) : Bool := c.isAlphanum || c == '+' || c == '-' || c == '.'

def scheme? : Text → Option (Text × Text)
  | [] => none
  | c :: t =>
    if c.isAlpha then
      match t.dropWhile isSchemeChar with
      | ':' :: rest => some ((c :: t.takeWhile isSchemeChar).map Char.toLower, rest)
      | _ => none
    else none

/-- Blanks and control characters around an address, and tabs and newlines in it, do not count. -/
def clean (t : Text) : Text :=
  let isOuter (c : Char) : Bool := c.toNat ≤ 0x20
  ((t.dropWhile isOuter).reverse.dropWhile isOuter).reverse.filter fun c =>
    c != '\t' && c != '\n' && c != '\r'

/-- The text before the query and fragment, the query, and the fragment. -/
def splitTail (t : Text) : Text × Option Text × Option Text :=
  let (t, fragment) := match Text.splitAround? ['#'] t with
    | some (before, after) => (before, some after)
    | none => (t, none)
  match Text.splitAround? ['?'] t with
  | some (before, query) => (before, some query, fragment)
  | none => (t, none, fragment)

/-- The pieces of a path between its slashes. -/
def splitSegments (special : Bool) : Text → List Text
  | [] => [[]]
  | c :: t =>
    if isSlash special c then [] :: splitSegments special t
    else
      match splitSegments special t with
      | [] => [[c]]
      | s :: ss => (c :: s) :: ss

def unescapeDots (s : Text) : Text :=
  match s with
  | '%' :: '2' :: e :: t => if e = 'e' ∨ e = 'E' then '.' :: unescapeDots t else s
  | c :: t => c :: unescapeDots t
  | [] => []

def isDot (s : Text) : Bool := unescapeDots s == ['.']

def isDotDot (s : Text) : Bool := unescapeDots s == ['.', '.']

def isDriveLetter : Text → Bool
  | [c, d] => c.isAlpha && (d == ':' || d == '|')
  | _ => false

/-- A drive letter that stands first in the path of a file is kept and ends in a colon. -/
def pushSegment (file : Bool) (done : List Text) (s : Text) : List Text :=
  match s with
  | [c, _] => if file && done.isEmpty && isDriveLetter s then [[c, ':']] else done ++ [s]
  | _ => done ++ [s]

def popSegment (file : Bool) (done : List Text) : List Text :=
  match done with
  | [s] => if file && isDriveLetter s then done else []
  | _ => done.dropLast

/-- The segments of a path with `.` and `..` resolved; at the end they leave an empty segment. -/
def resolve (file : Bool) (done : List Text) : List Text → List Text
  | [] => done
  | s :: rest =>
    if isDotDot s then
      let done := popSegment file done
      resolve file (if rest = [] then done ++ [[]] else done) rest
    else if isDot s then resolve file (if rest = [] then done ++ [[]] else done) rest
    else resolve file (pushSegment file done (encode pathReserved s)) rest

/-- Drops empty segments in front of others. -/
def dropEmpty : List Text → List Text
  | [] :: s :: ss => dropEmpty (s :: ss)
  | ss => ss

/-- The path that a text behind the host spells. -/
def pathOf (scheme : Text) (t : Text) : UriPath :=
  let special := isSpecial scheme
  let inside := match t with
    | c :: r => if isSlash special c then r else t
    | [] => []
  if t = [] ∧ !special then .segments []
  else
    let ss := resolve (isFile scheme) [] (splitSegments special inside)
    .segments (if isFile scheme then dropEmpty ss else ss)

/-- A number in decimal, or in hexadecimal or octal behind its mark. -/
def hostNumber? (t : Text) : Option Nat :=
  let (radix, digits) := match t with
    | '0' :: 'x' :: t => (16, t)
    | '0' :: t => if t = [] then (10, ['0']) else (8, t)
    | t => (10, t)
  let append (n : Nat) (c : Char) : Option Nat :=
    (hexDigit? c).bind fun d => if d < radix then some (radix * n + d) else none
  digits.foldlM append 0

/-- The pieces of a host between its points, without an empty one at the end. -/
def hostLabels (t : Text) : List Text :=
  let labels := Text.splitNewlines (t.map fun c => if c = '.' then '\n' else c)
  match labels.reverse with
  | [] :: rest => if rest = [] then labels else rest.reverse
  | _ => labels

def endsInNumber (labels : List Text) : Bool :=
  match labels.getLast? with
  | some [] => false
  | some ('0' :: 'x' :: t) => t.all fun c => (hexDigit? c).isSome
  | some t => t.all Char.isDigit
  | none => false

/-- The number that up to four numbers stand for: each but the last is one byte. -/
def address? (numbers : List Nat) : Option Nat :=
  match numbers.reverse with
  | [] => none
  | last :: rest =>
    if 4 < numbers.length ∨ rest.any (255 < ·) ∨ Nat.pow 256 (5 - numbers.length) ≤ last then none
    else
      let parts := numbers.dropLast.zipIdx.map fun (n, i) => n * Nat.pow 256 (3 - i)
      some (last + parts.foldl (· + ·) 0)

def addressText (n : Nat) : Text :=
  Text.joinWith ['.'] ([3, 2, 1, 0].map fun i => Text.decimal (n / Nat.pow 256 i % 256))

def isForbidden (c : Char) : Bool :=
  c.toNat ≤ 0x20 || 0x7F ≤ c.toNat || " #/:<>?@[\\]^|%".toList.contains c

/-- The host of a scheme that knows hosts. -/
def host? (t : Text) : Except Fault Text :=
  let name := (Text.decode (decodeBytes t)).map Char.toLower
  if name = [] then .error .emptyHost
  else if name.any isForbidden then .error .invalidHost
  else if endsInNumber (hostLabels name) then
    match (hostLabels name).mapM hostNumber? >>= address? with
    | some n => .ok (addressText n)
    | none => .error .invalidHost
  else .ok name

/-- The host of any other scheme. -/
def opaqueHost? (t : Text) : Except Fault Text :=
  if t.any fun c => c != '%' && c.toNat < 0x7F && isForbidden c then .error .invalidHost
  else .ok (encode [] t)

def port? (scheme : Text) (t : Text) : Except Fault (Option Nat) :=
  if t = [] then .ok none
  else if t.all Char.isDigit then
    let n := Text.ofDecimal t
    if 65535 < n then .error .invalidPort
    else .ok (if defaultPort? scheme = some n then none else some n)
  else .error .invalidPort

/-- The text before the last `@`, and the text behind it. -/
def splitUser (t : Text) : Text × Text :=
  let behind := (t.reverse.takeWhile (· ≠ '@')).reverse
  if behind.length = t.length then ([], t) else (t.take (t.length - behind.length - 1), behind)

def userinfoOf (t : Text) : Text :=
  match Text.splitAround? [':'] t with
  | some (name, []) => encode userReserved name
  | some (name, word) => encode userReserved name ++ ':' :: encode userReserved word
  | none => encode userReserved t

/-- An address with the host, port and path behind two slashes. -/
def withAuthority (scheme t : Text) (query fragment : Option Text) : Except Fault Uri := do
  let special := isSpecial scheme
  let authority := t.takeWhile fun c => !isSlash special c
  let path := t.drop authority.length
  let (user, place) := splitUser authority
  let (name, port) := match Text.splitAround? [':'] place with
    | some (name, port) => (name, port)
    | none => (place, [])
  let host ← if special then host? name else opaqueHost? name
  return ⟨scheme, userinfoOf user, some host, ← port? scheme port, pathOf scheme path, query,
    fragment⟩

/-- The address of a file behind two slashes; a host named `localhost` does not count. -/
def fileWithHost (t : Text) (query fragment : Option Text) : Except Fault Uri := do
  let scheme := "file".toList
  let name := t.takeWhile fun c => !isSlash true c
  if name = [] ∨ isDriveLetter name then
    return ⟨scheme, [], none, none, pathOf scheme t, query, fragment⟩
  else
    let host ← host? name
    let host := if host = "localhost".toList then none else some host
    return ⟨scheme, [], host, none, pathOf scheme (t.drop name.length), query, fragment⟩

def dropSlashes (t : Text) : Text := t.dropWhile (isSlash true)

/-- Reads an address. -/
def read (t : Text) : Except Fault Uri :=
  match scheme? (clean t) with
  | none => .error .noScheme
  | some (scheme, rest) =>
    let special := isSpecial scheme
    let (rest, query, fragment) := splitTail rest
    let query := query.map (encode (queryReserved special))
    let fragment := fragment.map (encode fragmentReserved)
    if isFile scheme then
      match rest with
      | a :: b :: t =>
        if isSlash true a && isSlash true b then fileWithHost t query fragment
        else .ok ⟨scheme, [], none, none, pathOf scheme rest, query, fragment⟩
      | _ => .ok ⟨scheme, [], none, none, pathOf scheme rest, query, fragment⟩
    else if special then withAuthority scheme (dropSlashes rest) query fragment
    else
      match rest with
      | '/' :: '/' :: t => withAuthority scheme t query fragment
      | '/' :: _ => .ok ⟨scheme, [], none, none, pathOf scheme rest, query, fragment⟩
      | _ => .ok ⟨scheme, [], none, none, .opaquePath (encode [] rest), query, fragment⟩

/-! ## Writing -/

def pathText : UriPath → Text
  | .opaquePath t => t
  | .segments ss => ss.flatMap ('/' :: ·)

/-- What stands between the scheme and the path: a file always has two slashes there. -/
def authorityText (u : Uri) : Text :=
  match u.host with
  | some host =>
    '/' :: '/' :: (if u.userinfo = [] then [] else u.userinfo ++ ['@']) ++ host ++
      match u.port with
      | some n => ':' :: Text.decimal n
      | none => []
  | none =>
    if isFile u.scheme then ['/', '/']
    else
      match u.path with
      | .segments ([] :: _ :: _) => ['/', '.']
      | _ => []

def tailText (mark : Char) : Option Text → Text
  | some t => mark :: t
  | none => []

def toText (u : Uri) : Text :=
  u.scheme ++ ':' :: authorityText u ++ pathText u.path ++ tailText '?' u.query ++
    tailText '#' u.fragment

/-- The path of the file at an address without a host. A path that ends in a drive letter gets a
slash behind it. -/
def toPath? (u : Uri) : Option File.Path :=
  match u.path with
  | .segments [] => none
  | .opaquePath _ => none
  | .segments ss =>
    if u.host = none ∨ u.host = some "localhost".toList then
      let path := Text.decode (ss.flatMap fun s => '/'.toUInt8 :: decodeBytes s)
      let isDrive := match path.reverse with
        | d :: c :: _ :: _ => c.isAlpha && (d == ':' || d == '|')
        | _ => false
      some (if isDrive then path ++ ['/'] else path)
    else none

end Uri
end Pinout
