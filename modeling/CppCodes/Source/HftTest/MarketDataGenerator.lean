import CppCodes.Source.HftTest.Strategy
import Mathlib.Algebra.BigOperators.Group.List.Basic
import Mathlib.Data.List.Induction

/-!
# The market data of thread A

Source: hft_test/src/hft_main.cpp:206-227 and the use of it in 422-455. What
`dist_(rng_)` draws is an input. The symbol and the two exchange ids of a delta,
which nobody reads, are left out. The book of a run is a function of the draws:
only `on_book` changes it, once for each delta.
-/

set_option autoImplicit false

namespace CppCodes.Source.HftTest

open CppCodes.Library

structure MarketDataGenerator where
  px : Int
  tick : Int
  deriving DecidableEq

def MarketDataGenerator.next (g : MarketDataGenerator) (increment : Int) (mdEventId : UInt64) :
    MarketDataGenerator × BookDelta :=
  let px := g.px + increment
  ({ g with px },
    { mdEventId, levels := [⟨.buy, px - g.tick, 1⟩, ⟨.sell, px + g.tick, 1⟩] })

/-- The generator and the book of `run_thread_a`, and the number of events so far. -/
structure Feed where
  generator : MarketDataGenerator
  book : OrderBook := {}
  events : Nat := 0

namespace Feed

/-- The part of one turn of the loop that the book depends on. -/
def event (f : Feed) (increment : Int) : Feed :=
  let (generator, delta) := f.generator.next increment (UInt64.ofNat (f.events + 1))
  { generator, book := f.book.apply delta, events := f.events + 1 }

def run (px tick : Int) (increments : List Int) : Feed :=
  increments.foldl event { generator := { px, tick } }

end Feed

end CppCodes.Source.HftTest
