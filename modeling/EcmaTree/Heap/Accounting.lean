/-!
# Accounting

What a collector counts, and when it is due. Waiting for at least as many new things as survived the
last collection keeps the work of all collections linear in the number of things ever made.
-/

namespace EcmaTree

/-- The counters of a collector and its settings. -/
structure Accounting where
  /-- How many things there are. -/
  live : Nat
  /-- The most things there were at once. -/
  peak : Nat
  /-- How many things were made. -/
  allocated : Nat
  /-- How many collections there were. -/
  collections : Nat
  /-- How many things the collections removed. -/
  collected : Nat
  /-- The least number of new things between two collections that are not asked for. -/
  threshold : Nat
  /-- Collections happen without being asked for. -/
  automatic : Bool
  /-- How many things were made since the last collection. -/
  sinceCollection : Nat
  /-- How many things the last collection left. -/
  survivors : Nat
deriving DecidableEq, Repr

namespace Accounting

/-- Before anything was made. -/
def start : Accounting := ⟨0, 0, 0, 0, 0, 4096, true, 0, 0⟩

/-- A number of things were made, one after the other and with none going away in between. -/
def made (a : Accounting) (n : Nat) : Accounting :=
  { a with
    live := a.live + n
    peak := max a.peak (a.live + n)
    allocated := a.allocated + n
    sinceCollection := a.sinceCollection + n }

/-- A number of things went away without a collection. -/
def gone (a : Accounting) (n : Nat) : Accounting := { a with live := a.live - n }

/-- A collection is due without being asked for. -/
def isDue (a : Accounting) : Bool := a.automatic && max a.threshold a.survivors ≤ a.sinceCollection

/-- A collection removed a number of things. -/
def collectionEnded (a : Accounting) (removed : Nat) : Accounting :=
  { a with
    live := a.live - removed
    collections := a.collections + 1
    collected := a.collected + removed
    sinceCollection := 0
    survivors := a.live - removed }

/-- Counts anew from what there is now. -/
def reset (a : Accounting) : Accounting :=
  { a with peak := a.live, allocated := 0, collections := 0, collected := 0 }

end Accounting

end EcmaTree
