import CppCodes.Library.Machine
import CppCodes.Source.RustCpp.DepthUpdate

/-!
# The implementations of the update path

Source: rust_cpp/md.cpp:104-122, md2.cpp:65-70 and 138-170, md3.cpp:66-77 and
143-177, md5.cpp:94-99 and 170-201, src/main.rs:56-64 and 255-282. They differ in how
the text of a number becomes a number, and in what happens when it does not. md4.cpp
has the same tests, but opens the arrays `b` and `a` of an on-demand document
together before it walks either: the levels it gets are up to simdjson, and it is
left out here.
-/

set_option autoImplicit false

namespace CppCodes.Source.RustCpp

open CppCodes.Library

/-- The conversions of the two standard libraries. -/
structure Numbers (F : Type) where
  /-- `std::stod`; `none` where it throws. -/
  stod : String → Option F
  strtod : String → F
  /-- `std::from_chars`; `none` unless the error code is `std::errc()`. -/
  fromChars : String → Option F
  /-- `str::parse::<f64>`. -/
  parseF64 : String → Option F
  /-- `NotNan::new(..).is_ok()`. -/
  notNan : F → Bool

variable {F : Type} [LinearOrder F] [Zero F]

/-- The levels of one side, with a conversion that may throw. -/
def readLevels (convert : String → Option F) : List RawLevel → Except Failure (List (F × F))
  | [] => .ok []
  | (p, s) :: rest =>
      match convert p, convert s with
      | some p, some s =>
          match readLevels convert rest with
          | .ok levels => .ok ((p, s) :: levels)
          | .error e => .error e
      | _, _ => .error .badNumber

namespace Md

def readSide (n : Numbers F) : List RawLevel → Except Failure (List (F × F)) := readLevels n.stod

def applyUpdateJson (n : Numbers F) : Feed F → DepthUpdate → Feed F × Except Failure Unit :=
  applyUpdate (readSide n)

end Md

namespace Md2

/-- Falls back to `std::stod`. -/
def parseDouble (n : Numbers F) (sv : String) : Option F :=
  match n.fromChars sv with
  | some out => some out
  | none => n.stod sv

def readSide (n : Numbers F) : List RawLevel → Except Failure (List (F × F)) :=
  readLevels (parseDouble n)

def applyUpdateJson (n : Numbers F) : Feed F → DepthUpdate → Feed F × Except Failure Unit :=
  applyUpdate (readSide n)

end Md2

/-- Falls back to `std::strtod`, which never fails. -/
def fromCharsOrStrtod (n : Numbers F) (s : String) : F :=
  match n.fromChars s with
  | some out => out
  | none => n.strtod s

namespace Md3

/-- `parse_double` of a JSON string. -/
def parseDouble (n : Numbers F) : String → F := fromCharsOrStrtod n

def readSide (n : Numbers F) : List RawLevel → Except Failure (List (F × F)) :=
  readLevels fun s => some (parseDouble n s)

def applyUpdateJson (n : Numbers F) : Feed F → DepthUpdate → Feed F × Except Failure Unit :=
  applyUpdate (readSide n)

end Md3

namespace Md5

def parseDouble (n : Numbers F) : String → F := fromCharsOrStrtod n

def readSide (n : Numbers F) : List RawLevel → Except Failure (List (F × F)) :=
  readLevels fun s => some (parseDouble n s)

def applyUpdateJson (n : Numbers F) : Feed F → DepthUpdate → Feed F × Except Failure Unit :=
  applyUpdate (readSide n)

end Md5

namespace MainRs

def parseSide (n : Numbers F) (raw : List RawLevel) : List (F × F) :=
  raw.map fun (p, s) => ((n.parseF64 p).getD 0, (n.parseF64 s).getD 0)

/-- `parse_side` with the `filter_map` behind it. -/
def readSide (n : Numbers F) (raw : List RawLevel) : Except Failure (List (F × F)) :=
  .ok ((parseSide n raw).filter fun d => n.notNan d.1)

def applyUpdate (n : Numbers F) : Feed F → DepthUpdate → Feed F × Except Failure Unit :=
  RustCpp.applyUpdate (readSide n)

end MainRs

inductive Implementation where
  | md
  | md2
  | md3
  | md5
  | mainRs
  deriving DecidableEq

namespace Implementation

def readSide (n : Numbers F) : Implementation → List RawLevel → Except Failure (List (F × F))
  | md => Md.readSide n
  | md2 => Md2.readSide n
  | md3 => Md3.readSide n
  | md5 => Md5.readSide n
  | mainRs => MainRs.readSide n

def applyUpdate (n : Numbers F) :
    Implementation → Feed F → DepthUpdate → Feed F × Except Failure Unit
  | md => Md.applyUpdateJson n
  | md2 => Md2.applyUpdateJson n
  | md3 => Md3.applyUpdateJson n
  | md5 => Md5.applyUpdateJson n
  | mainRs => MainRs.applyUpdate n

theorem applyUpdate_spec (impl : Implementation) (n : Numbers F) (s : Feed F)
    (upd : DepthUpdate) : Effect (impl.readSide n) s upd (impl.applyUpdate n s upd) := by
  cases impl <;> exact applyUpdate_effect _ s upd

/-- One call after the other on the same feed; a failed call is observed, and the
next update is handed in all the same. -/
def machine (impl : Implementation) (n : Numbers F) :
    Machine (Feed F) DepthUpdate (Except Failure Unit) where
  step s upd := some ((impl.applyUpdate n s upd).1, [(impl.applyUpdate n s upd).2])

end Implementation

end CppCodes.Source.RustCpp
