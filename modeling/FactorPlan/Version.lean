/-!
The version of this library.

Correspondence:
  `__version__` ↔ `version`
-/

namespace FactorPlan

/-- The version, as it is shown. -/
def version : String := "0.4.2"

end FactorPlan
