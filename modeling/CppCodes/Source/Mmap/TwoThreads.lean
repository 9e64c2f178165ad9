import CppCodes.Library.Machine
import Mathlib.Algebra.Ring.Nat

/-!
# A writer and a reader of shared memory

Source: mmap/mmap_two_threads.cpp:16-22 and 50-90. A line is what `std::getline` hands out,
a list of bytes. The two threads take turns step by step; each copy is one step, the
writer's together with the read of its line. The region has been zeroed before the first.
-/

set_option autoImplicit false

namespace CppCodes.Source.Mmap

open CppCodes.Library

abbrev Bytes := List UInt8

/-- `kPayloadSize` -/
def payloadSize : Nat := 1024

/-- `length` is the number of bytes currently valid in `data`. -/
structure SharedRegion where
  length : Nat := 0
  done : Bool := false
  data : Bytes := List.replicate payloadSize 0
  deriving DecidableEq

/-- `"quit"` -/
def quit : Bytes := [113, 117, 105, 116]

/-- The bytes of a line that fit, with room for the terminator. -/
def cut (line : Bytes) : Bytes := line.take (min line.length (payloadSize - 1))

inductive WriterPc where
  | reading
  | copied (len : Nat)
  | terminated (len : Nat)
  | stopped
  deriving DecidableEq

inductive ReaderPc where
  | polling
  | copying (len : Nat)
  | checking
  | stopped
  deriving DecidableEq

/-- `taken` and `input` are the lines of `std::cin` that have been read and that are still
to come. -/
structure State where
  region : SharedRegion := {}
  taken : List Bytes := []
  input : List Bytes
  writer : WriterPc := .reading
  reader : ReaderPc := .polling
  lastLen : Nat := 2 ^ 32 - 1
  deriving DecidableEq

inductive Action where
  | writerCopy
  | writerTerminate
  | writerStoreLength
  | writerStoreDone
  | readerLoadLength
  | readerCopy
  | readerLoadDone
  deriving DecidableEq

/-- `printed` is what follows "[thread B] read: ". -/
inductive Event where
  | copied (line : Bytes)
  | printed (text : Bytes)
  deriving DecidableEq

def machine : Machine State Action Event where
  step s
    | .writerCopy =>
        match s.writer, s.input with
        | .reading, line :: rest =>
            if line = quit then none
            else
              let bytes := cut line
              some ({ s with
                region := { s.region with data := bytes ++ s.region.data.drop bytes.length }
                taken := s.taken ++ [line]
                input := rest
                writer := .copied bytes.length }, [.copied line])
        | _, _ => none
    | .writerTerminate =>
        match s.writer with
        | .copied len =>
            some ({ s with
              region := { s.region with data := s.region.data.set len 0 }
              writer := .terminated len }, [])
        | _ => none
    | .writerStoreLength =>
        match s.writer with
        | .terminated len =>
            some ({ s with region := { s.region with length := len }, writer := .reading }, [])
        | _ => none
    | .writerStoreDone =>
        match s.writer, s.input with
        | .reading, [] =>
            some ({ s with region := { s.region with done := true }, writer := .stopped }, [])
        | .reading, line :: rest =>
            if line = quit then
              some ({ s with
                region := { s.region with done := true }
                input := rest
                writer := .stopped }, [])
            else none
        | _, _ => none
    | .readerLoadLength =>
        match s.reader with
        | .polling =>
            let len := s.region.length
            if len > 0 ∧ len ≠ s.lastLen then some ({ s with reader := .copying len }, [])
            else some ({ s with reader := .checking }, [])
        | _ => none
    | .readerCopy =>
        match s.reader with
        | .copying len =>
            some ({ s with reader := .checking, lastLen := len }, [.printed (s.region.data.take len)])
        | _ => none
    | .readerLoadDone =>
        match s.reader with
        | .checking =>
            some ({ s with reader := if s.region.done then .stopped else .polling }, [])
        | _ => none

/-- The lines the writer has begun to store, in order. -/
def copiedLines (trace : List Event) : List Bytes :=
  trace.filterMap fun
    | .copied line => some line
    | .printed _ => none

def printedTexts (trace : List Event) : List Bytes :=
  trace.filterMap fun
    | .copied _ => none
    | .printed text => some text

end CppCodes.Source.Mmap
