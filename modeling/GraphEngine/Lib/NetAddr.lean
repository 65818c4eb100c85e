/-
Module: GraphEngine.Lib.NetAddr
Layer: Lib
Purpose: Network addresses and their textual forms, as the standard library
  reads them.  A reader takes characters from the front of a text; one that is
  transparent at a character reads the same with or without a text that starts
  there.
Trusted boundary: the grammar follows the documentation of `IpAddr` and
  `SocketAddr`
Main exports: IpAddr, SocketAddr, IpAddr.parse, SocketAddr.parse,
  Reader.Transparent, parse_ip_port
-/
import Mathlib.Algebra.Ring.Nat
import Mathlib.Data.List.Basic
import Mathlib.Data.List.TakeWhile

namespace GraphEngine

/-! ### Addresses -/

/-- An IPv4 address. -/
structure Ipv4Addr where
  a : Nat
  b : Nat
  c : Nat
  d : Nat
deriving DecidableEq, Repr

/-- Eight segments of 16 bits. -/
structure Ipv6Addr where
  segments : Vector Nat 8
deriving DecidableEq, Repr

/-- An address of either family. -/
inductive IpAddr where
  | v4 (ip : Ipv4Addr)
  | v6 (ip : Ipv6Addr)
deriving DecidableEq, Repr

/-- An address with a port. -/
inductive SocketAddr where
  | v4 (ip : Ipv4Addr) (port : Nat)
  | v6 (ip : Ipv6Addr) (port flowinfo scopeId : Nat)
deriving DecidableEq, Repr

/-- `SocketAddr::new`. -/
def SocketAddr.new : IpAddr → Nat → SocketAddr
  | .v4 ip, port => .v4 ip port
  | .v6 ip, port => .v6 ip port 0 0

/-- Whether an address is of the older family. -/
def IpAddr.isV4 : IpAddr → Bool
  | .v4 _ => true
  | .v6 _ => false

/-! ### Readers -/

/-- What is read from the front of a text, and the text after it. -/
abbrev Reader (α : Type) := List Char → Option (α × List Char)

namespace Reader

variable {α β : Type}

/-- A reader that takes nothing. -/
def pure (a : α) : Reader α := fun text => some (a, text)

/-- One reader after another. -/
def bind (first : Reader α) (rest : α → Reader β) : Reader β := fun text =>
  (first text).bind fun read => rest read.1 read.2

/-- A reader whose value is passed through a function. -/
def map (f : α → β) (reader : Reader α) : Reader β := reader.bind fun a => pure (f a)

/-- `or_else`: the second reader starts where the first did. -/
def orElse (first second : Reader α) : Reader α :=
  fun text => (first text).or (second text)

/-- `parse_with`: the whole text. -/
def parseWith (reader : Reader α) (text : List Char) : Option α :=
  match reader text with
  | some (a, []) => some a
  | _ => none

/-- A text is parsed if it is read to its end. -/
theorem parseWith_eq_some_iff {reader : Reader α} {text : List Char} {a : α} :
    reader.parseWith text = some a ↔ reader text = some (a, []) := by
  rw [parseWith]
  split
  case h_1 found read =>
    rw [read, Option.some.injEq, Option.some.injEq, Prod.mk.injEq, and_iff_left rfl]
  case h_2 leftover =>
    constructor
    · intro impossible
      cases impossible
    · intro read
      exact absurd read (leftover a)

/-- What is read by two readers in turn. -/
theorem bind_eq_some_iff {first : Reader α} {rest : α → Reader β} {text : List Char}
    {read : β × List Char} :
    first.bind rest text = some read ↔ ∃ a left, first text = some (a, left) ∧
      rest a left = some read := by
  rw [bind, Option.bind_eq_some_iff, Prod.exists]

/-- What a mapped reader reads. -/
theorem map_eq_some_iff {f : α → β} {reader : Reader α} {text : List Char}
    {read : β × List Char} :
    reader.map f text = some read ↔ ∃ a, reader text = some (a, read.2) ∧
      read.1 = f a := by
  rw [map, bind_eq_some_iff]
  constructor
  · rintro ⟨a, left, taken, same⟩
    cases same
    exact ⟨a, taken, rfl⟩
  · rintro ⟨a, taken, same⟩
    exact ⟨a, read.2, taken, congrArg some (Prod.ext same.symm rfl)⟩

end Reader

/-- One given character. -/
def readGivenChar (target : Char) : Reader Unit
  | c :: rest => if c = target then some ((), rest) else none
  | [] => none

/-- The value of a character as a digit of any radix, 36 if it is none. -/
def digitOf (c : Char) : Nat :=
  if c.isDigit then c.toNat - '0'.toNat
  else if c.isLower then c.toNat - 'a'.toNat + 10
  else if c.isUpper then c.toNat - 'A'.toNat + 10
  else 36

/-- A number below `bound`, in as many digits as there are. -/
def readNumber (radix : Nat) (maxDigits : Option Nat) (allowZeroPrefix : Bool)
    (bound : Nat) : Reader Nat := fun text =>
  let digits := text.takeWhile fun c => digitOf c < radix
  let value := digits.foldl (fun value c => radix * value + digitOf c) 0
  if digits = [] ∨ (maxDigits.any fun most => most < digits.length) ∨
      (!allowZeroPrefix && digits.head? = some '0' && 1 < digits.length) ∨
        bound ≤ value then none
  else some (value, text.dropWhile fun c => digitOf c < radix)

/-- A separator and what it stands before are not disturbed by another character
behind them. -/
def readSeparator {α : Type} (sep : Char) (index : Nat) (inner : Reader α) : Reader α :=
  if 0 < index then (readGivenChar sep).bind fun _ => inner else inner

/-- One of the four numbers of an IPv4 address; octal numbers are not allowed. -/
def readOctet (index : Nat) : Reader Nat :=
  readSeparator '.' index (readNumber 10 (some 3) false (2 ^ 8))

/-- Four octets with dots between. -/
def readIpv4Addr : Reader Ipv4Addr :=
  (readOctet 0).bind fun a => (readOctet 1).bind fun b => (readOctet 2).bind fun c =>
    (readOctet 3).map fun d =>
    { a := a, b := b, c := c, d := d }

/-- `read_groups`: up to `limit` groups, and whether the last two come from an
embedded IPv4 address.  It reads as many as there are, and cannot fail. -/
def readGroups (limit : Nat) : Nat → List Nat → List Char → (List Nat × Bool) × List Char
  | 0, groups, text => ((groups, false), text)
  | remaining + 1, groups, text =>
      let i := groups.length
      match if i < limit - 1 then readSeparator ':' i readIpv4Addr text else none with
      | some (ip, rest) =>
          ((groups ++ [256 * ip.a + ip.b, 256 * ip.c + ip.d], true), rest)
      | none =>
          match readSeparator ':' i (readNumber 16 (some 4) true (2 ^ 16)) text with
          | some (group, rest) => readGroups limit remaining (groups ++ [group]) rest
          | none => ((groups, false), text)

/-- The groups before and after `::`, with zeros between them. -/
def Ipv6Addr.ofGroups (head tail : List Nat) : Ipv6Addr where
  segments := Vector.ofFn fun i =>
    if i.val < 8 - tail.length then head.getD i.val 0
      else tail.getD (i.val - (8 - tail.length)) 0

/-- Eight groups with colons between, one run of zeros perhaps left out. -/
def readIpv6Addr : Reader Ipv6Addr := fun text =>
  let ((head, embedded), afterHead) := readGroups 8 8 [] text
  if head.length = 8 then some (.ofGroups head [], afterHead)
  -- an embedded address is not allowed before `::`
  else if embedded then none
  else
    ((readGivenChar ':').bind fun _ => readGivenChar ':').bind
      (fun _ rest =>
        -- `::` stands for at least one group
        let limit := 8 - (head.length + 1)
        let ((tail, _), afterTail) := readGroups limit limit [] rest
        some (.ofGroups head tail, afterTail))
      afterHead

/-- An address of either family. -/
def readIpAddr : Reader IpAddr := (readIpv4Addr.map .v4).orElse (readIpv6Addr.map .v6)

/-- A colon and a port. -/
def readPort : Reader Nat :=
  (readGivenChar ':').bind fun _ => readNumber 10 none true (2 ^ 16)

/-- A percent sign and a scope. -/
def readScopeId : Reader Nat :=
  (readGivenChar '%').bind fun _ => readNumber 10 none true (2 ^ 32)

/-- An IPv4 address and a port. -/
def readSocketAddrV4 : Reader SocketAddr :=
  readIpv4Addr.bind fun ip => readPort.map fun port => .v4 ip port

/-- An IPv6 address in brackets and a port. -/
def readSocketAddrV6 : Reader SocketAddr :=
  (readGivenChar '[').bind fun _ => readIpv6Addr.bind fun ip =>
    (readScopeId.orElse (Reader.pure 0)).bind fun scopeId =>
      (readGivenChar ']').bind fun _ => readPort.map fun port => .v6 ip port 0 scopeId

/-- A socket address of either family. -/
def readSocketAddr : Reader SocketAddr := readSocketAddrV4.orElse readSocketAddrV6

/-- `IpAddr::from_str`. -/
def IpAddr.parse (text : String) : Option IpAddr := readIpAddr.parseWith text.toList

/-- `SocketAddr::from_str`. -/
def SocketAddr.parse (text : String) : Option SocketAddr :=
  readSocketAddr.parseWith text.toList

example : IpAddr.parse "10.0.3.7" = some (.v4 { a := 10, b := 0, c := 3, d := 7 }) := by
  decide +kernel
example : IpAddr.parse "10.0.03.7" = none := by decide +kernel
example :
    IpAddr.parse "fd00::1:0a" =
      some (.v6 { segments := #v[0xfd00, 0, 0, 0, 0, 0, 1, 10] }) := by
  decide +kernel
example : SocketAddr.parse "[::ffff:10.0.3.7]:80" =
    some (.v6 { segments := #v[0, 0, 0, 0, 0, 0xffff, 0x0a00, 0x0307] } 80 0 0) := by
  decide +kernel
example : SocketAddr.parse "fd00::1:80" = none := by decide +kernel

/-! ### Transparent readers -/

namespace Reader

variable {α β : Type}

/-- What starts with the character is left unread, and what is read before does
not depend on it. -/
def Transparent (stop : Char) (reader : Reader α) : Prop :=
  ∀ text after, reader (text ++ stop :: after) = (reader text).map fun read =>
    (read.1, read.2 ++ stop :: after)

namespace Transparent

variable {stop : Char}

/-- A reader that takes nothing is not disturbed by what follows. -/
theorem pure (a : α) : Transparent stop (Reader.pure a) := fun _ _ => rfl

/-- Two readers in turn are not disturbed by what disturbs neither. -/
theorem bind {first : Reader α} {rest : α → Reader β}
    (transparent : Transparent stop first) (each : ∀ a, Transparent stop (rest a)) :
    Transparent stop (first.bind rest) := by
  intro text after
  rw [Reader.bind, Reader.bind, transparent text after]
  cases read : first text with
  | none => rfl
  | some taken => exact each taken.1 taken.2 after

/-- A mapped reader is not disturbed by what does not disturb the reader. -/
theorem map {f : α → β} {reader : Reader α} (transparent : Transparent stop reader) :
    Transparent stop (reader.map f) :=
  bind transparent fun a => pure (f a)

/-- Reading one character is not disturbed by another one behind it. -/
theorem readGivenChar {target : Char} (other : stop ≠ target) :
    Transparent stop (readGivenChar target) := by
  intro text after
  cases text with
  | nil => exact if_neg other
  | cons c rest =>
      rw [List.cons_append, GraphEngine.readGivenChar, GraphEngine.readGivenChar]
      split <;> rfl

/-- A refused character ends what is taken. -/
theorem takeWhile_append_stop {p : Char → Bool} (refused : p stop = false)
    (text after : List Char) :
    (text ++ stop :: after).takeWhile p = text.takeWhile p := by
  rw [List.takeWhile_append]
  split
  case isTrue whole =>
    rw [List.takeWhile_cons_of_neg (by rw [refused]; exact Bool.false_ne_true),
      List.append_nil]
    exact (List.takeWhile_prefix p).eq_of_length whole |>.symm
  case isFalse => rfl

/-- A refused character ends what is dropped. -/
theorem dropWhile_append_stop {p : Char → Bool} (refused : p stop = false)
    (text after : List Char) :
    (text ++ stop :: after).dropWhile p = text.dropWhile p ++ stop :: after := by
  rw [List.dropWhile_append]
  split
  case isTrue whole =>
    rw [List.isEmpty_iff.mp whole, List.nil_append,
      List.dropWhile_cons_of_neg (by rw [refused]; exact Bool.false_ne_true)]
  case isFalse => rfl

/-- A number is not disturbed by a character behind it that is no digit. -/
theorem readNumber {radix bound : Nat} {maxDigits : Option Nat}
    {allowZeroPrefix : Bool} (noDigit : radix ≤ digitOf stop) :
    Transparent stop (readNumber radix maxDigits allowZeroPrefix bound) := by
  intro text after
  have refused : decide (digitOf stop < radix) = false :=
    decide_eq_false (Nat.not_lt.mpr noDigit)
  have digits := takeWhile_append_stop
    (p := fun c => decide (digitOf c < radix)) refused text after
  have rest := dropWhile_append_stop
    (p := fun c => decide (digitOf c < radix)) refused text after
  simp only [GraphEngine.readNumber, digits, rest]
  split <;> rfl

/-- A separator other than the character is no reason to read on. -/
theorem readSeparator {sep : Char} {index : Nat} {inner : Reader α}
    (other : stop ≠ sep) (transparent : Transparent stop inner) :
    Transparent stop (readSeparator sep index inner) := by
  rw [GraphEngine.readSeparator]
  split
  · exact bind (readGivenChar other) fun _ => transparent
  · exact transparent

end Transparent

end Reader

open Reader (Transparent)

/-- An octet of a dotted address ends at a colon. -/
theorem transparent_readOctet (index : Nat) : Transparent ':' (readOctet index) :=
  Transparent.readSeparator (by decide) (Transparent.readNumber (by decide))

/-- An IPv4 address ends before a colon. -/
theorem transparent_readIpv4Addr : Transparent ':' readIpv4Addr :=
  (transparent_readOctet 0).bind fun _ => (transparent_readOctet 1).bind fun _ =>
    (transparent_readOctet 2).bind fun _ => (transparent_readOctet 3).map

/-! ### An address and a port -/

/-- Decimal digits are read as the number that they are printed from. -/
theorem readNumber_toDigits {n bound : Nat} (small : n < bound) :
    readNumber 10 none true bound (Nat.toDigits 10 n) = some (n, []) := by
  have isDigit (c : Char) (member : c ∈ Nat.toDigits 10 n) : c.isDigit :=
    Nat.isDigit_of_mem_toDigits (by decide) (by decide) member
  have valueOf (c : Char) (member : c ∈ Nat.toDigits 10 n) :
      digitOf c = c.toNat - '0'.toNat :=
    if_pos (isDigit c member)
  have isTen (c : Char) (member : c ∈ Nat.toDigits 10 n) :
      decide (digitOf c < 10) = true := by
    rw [valueOf c member, decide_eq_true_eq]
    have bounds := Char.isDigit_iff_toNat.mp (isDigit c member)
    simp only [Char.reduceToNat] at bounds ⊢
    omega
  have taken : (Nat.toDigits 10 n).takeWhile (fun c => decide (digitOf c < 10)) =
      Nat.toDigits 10 n :=
    List.takeWhile_eq_self_iff.mpr isTen
  have dropped : (Nat.toDigits 10 n).dropWhile (fun c => decide (digitOf c < 10)) = [] :=
    List.dropWhile_eq_nil_iff.mpr isTen
  have value :
      (Nat.toDigits 10 n).foldl (fun value c => 10 * value + digitOf c) 0 = n := by
    have decimal : Nat.ofDigitChars 10 (Nat.toDigits 10 n) 0 = n :=
      Nat.ofDigitChars_ten_toDigits
    rw [Nat.ofDigitChars_eq_foldl] at decimal
    refine Eq.trans (List.foldl_ext _ _ _ fun value c member => ?_) decimal
    rw [valueOf c member]
  simp only [readNumber, taken, dropped, value]
  simp [Nat.toDigits_ne_nil, small]

/-- The decimal digits of a port are read back. -/
theorem readPort_of_cons {port : Nat} (small : port < 2 ^ 16) :
    readPort (':' :: Nat.toDigits 10 port) = some (port, []) :=
  readNumber_toDigits small

/-- A port number stops before a colon. -/
theorem readPort_leaves {text after rest : List Char} {port : Nat}
    (read : readPort (text ++ ':' :: after) = some (port, rest))
    (nonempty : text ≠ []) : rest ≠ [] := by
  cases text with
  | nil => exact absurd rfl nonempty
  | cons c text =>
      have stops : Transparent ':' (readNumber 10 none true (2 ^ 16)) :=
        Transparent.readNumber (by decide)
      rw [readPort, Reader.bind, List.cons_append, readGivenChar] at read
      split at read
      case isFalse => cases read
      case isTrue =>
        rw [Option.bind_some, stops text after] at read
        obtain ⟨taken, -, same⟩ := Option.map_eq_some_iff.mp read
        cases same
        exact List.append_ne_nil_of_right_ne_nil _ (List.cons_ne_nil _ _)

/-- A bracket is what tells IPv6 addresses with a port apart. -/
theorem readSocketAddrV6_of_plain {text : List Char}
    (plain : text.head? ≠ some '[') : readSocketAddrV6 text = none := by
  cases text with
  | nil => rfl
  | cons c rest =>
      rw [readSocketAddrV6, Reader.bind, readGivenChar,
        if_neg fun bracket => plain (congrArg some bracket)]
      rfl

/-- A text that does not begin with a character still does not once more is put
behind it. -/
theorem head?_append_cons_ne {text after : List Char} {stop target : Char}
    (plain : text.head? ≠ some target) (other : stop ≠ target) :
    (text ++ stop :: after).head? ≠ some target := by
  cases text with
  | nil => exact fun same => other (Option.some.inj same)
  | cons c rest => exact plain

/-- The text of an IPv4 address is read as one before anything else is tried. -/
theorem parseWith_readIpAddr_v4 {text : List Char} {ip : Ipv4Addr} :
    readIpAddr.parseWith text = some (.v4 ip) ↔ readIpv4Addr text = some (ip, []) := by
  rw [Reader.parseWith_eq_some_iff, readIpAddr, Reader.orElse, Option.or_eq_some_iff,
    Reader.map_eq_some_iff, Reader.map_eq_some_iff]
  constructor
  · rintro (⟨ip', read, same⟩ | ⟨-, ip', -, impossible⟩)
    · cases same
      exact read
    · cases impossible
  · intro read
    exact .inl ⟨ip, read, rfl⟩

/-- An address text and a port, joined by a colon, are read together exactly
where the text is an IPv4 address. -/
theorem parse_ip_port {text : List Char} {port : Nat}
    (plain : text.head? ≠ some '[') (small : port < 2 ^ 16) {address : SocketAddr} :
    readSocketAddr.parseWith (text ++ ':' :: Nat.toDigits 10 port) = some address ↔
      ∃ ip, readIpAddr.parseWith text = some (.v4 ip) ∧ address = .v4 ip port := by
  have plain' : (text ++ ':' :: Nat.toDigits 10 port).head? ≠ some '[' :=
      head?_append_cons_ne plain (by decide)
  have noV6 := readSocketAddrV6_of_plain plain'
  rw [Reader.parseWith_eq_some_iff, readSocketAddr, Reader.orElse, noV6,
    Option.or_none, readSocketAddrV4, Reader.bind_eq_some_iff]
  simp only [parseWith_readIpAddr_v4, Reader.map_eq_some_iff,
    transparent_readIpv4Addr text (Nat.toDigits 10 port)]
  constructor
  · rintro ⟨ip, left, taken, port', read, rfl⟩
    obtain ⟨⟨ip', rest⟩, readIp, same⟩ := Option.map_eq_some_iff.mp taken
    cases same
    cases rest with
    | nil =>
        rw [List.nil_append, readPort_of_cons small] at read
        cases read
        exact ⟨ip', readIp, rfl⟩
    | cons c rest => exact absurd rfl (readPort_leaves read (List.cons_ne_nil c rest))
  · rintro ⟨ip, readIp, rfl⟩
    refine ⟨ip, ':' :: Nat.toDigits 10 port, ?_, port, readPort_of_cons small, rfl⟩
    rw [readIp]
    rfl

end GraphEngine
