import EcmaTree.Text.Basic
import Std.Data.TreeMap

/-!
# Order of texts

The dictionary order of the bytes is a lawful total order, so texts can be keys of ordered maps.
-/

namespace EcmaTree.Text

instance : Ord Text := ⟨fun a b ↦ compare a.toList b.toList⟩

instance : Std.TransOrd Text where
  eq_swap := Std.OrientedCmp.eq_swap (α := List UInt8)
  isLE_trans :=
    Std.TransCmp.isLE_trans (α := List UInt8)

instance : Std.LawfulEqOrd Text where
  compare_self := Std.ReflCmp.compare_self (α := List UInt8)
  eq_of_compare h := ext (Std.LawfulEqCmp.eq_of_compare h)

end EcmaTree.Text
