/-!
# Texts

Every string a program handles is a sequence of bytes: lengths, indices and offsets count bytes, and
nothing asks the bytes to be well-formed UTF-8. The list of bytes is the view all laws are stated
on.
-/

namespace EcmaTree

/-- A sequence of bytes. -/
structure Text where
  /-- The packed bytes. -/
  bytes : ByteArray

instance : DecidableEq Text
  | ⟨a⟩, ⟨b⟩ =>
    match a.instDecidableEq b with
    | isTrue h => isTrue (congrArg Text.mk h)
    | isFalse h => isFalse fun e ↦ h (congrArg Text.bytes e)

namespace Text

/-- The bytes, first to last. -/
def toList (t : Text) : List UInt8 := t.bytes.data.toList

/-- The text with the given bytes. -/
def ofList (l : List UInt8) : Text := ⟨l.toByteArray⟩

@[simp] theorem toList_ofList (l : List UInt8) : (ofList l).toList = l :=
  List.toList_data_toByteArray

/-- Texts with the same bytes are equal. -/
@[ext] theorem ext {a b : Text} (h : a.toList = b.toList) : a = b := by
  cases a
  cases b
  congr 1
  exact ByteArray.ext (Array.toList_inj.mp h)

@[simp] theorem ofList_toList (t : Text) : ofList t.toList = t := by
  ext1
  simp

/-- Texts are equal exactly when their bytes are. -/
theorem toList_inj {a b : Text} : a.toList = b.toList ↔ a = b := ⟨ext, fun h ↦ h ▸ rfl⟩

instance : Repr Text := ⟨fun t _ ↦ repr t.toList⟩

/-- The UTF-8 bytes of a string. -/
def ofString (s : String) : Text := ⟨s.toUTF8⟩

instance : Coe String Text := ⟨ofString⟩

/-- The text without bytes. -/
def empty : Text := ⟨.empty⟩

instance : Inhabited Text := ⟨empty⟩

/-- The text of one byte. -/
def single (b : UInt8) : Text := ⟨ByteArray.empty.push b⟩

/-- One text after the other. -/
def append (a b : Text) : Text := ⟨a.bytes ++ b.bytes⟩

instance : Append Text := ⟨append⟩

/-- Number of bytes. -/
def length (t : Text) : Nat := t.bytes.size

/-- A text without bytes. -/
def isEmpty (t : Text) : Bool := t.length == 0

/-- The byte at an index below the length. -/
def byte? (t : Text) (i : Nat) : Option UInt8 :=
  if h : i < t.bytes.size then some t.bytes[i] else none

/-- The bytes from index `start` up to, and without, index `stop`. -/
def slice (t : Text) (start stop : Nat) : Text := ⟨t.bytes.extract start stop⟩

/-- Applies a function to every byte. -/
def map (f : UInt8 → UInt8) (t : Text) : Text := ofList (t.toList.map f)

/-- Dictionary order of the unsigned bytes. -/
def lt (a b : Text) : Bool := decide (a.toList < b.toList)

/-- All texts of the list, one after the other. -/
def concat (ts : List Text) : Text := ts.foldl append empty

/-- The texts of the list with `separator` between each two neighbours. -/
def join (separator : Text) (ts : List Text) : Text := concat (ts.intersperse separator)

/-- The same byte a number of times. -/
def replicate (n : Nat) (b : UInt8) : Text := ofList (List.replicate n b)

/-- The bytes of a string are those of its characters. -/
theorem toList_ofString (s : String) :
    (ofString s).toList = s.toList.flatMap String.utf8EncodeChar := by
  have h : s.toUTF8 = (s.toList.flatMap String.utf8EncodeChar).toByteArray := by
    conv => lhs; rw [← String.ofList_toList (s := s)]
    exact String.toByteArray_ofList
  rw [ofString, h]
  exact toList_ofList _

@[simp] theorem toList_empty : empty.toList = [] := rfl

@[simp] theorem toList_append (a b : Text) : (a ++ b).toList = a.toList ++ b.toList :=
  ByteArray.toList_data_append

@[simp] theorem toList_map (f : UInt8 → UInt8) (t : Text) : (t.map f).toList = t.toList.map f :=
  toList_ofList _

@[simp] theorem toList_replicate (n : Nat) (b : UInt8) :
    (replicate n b).toList = List.replicate n b :=
  toList_ofList _

@[simp] theorem toList_slice (t : Text) (start stop : Nat) :
    (t.slice start stop).toList = (t.toList.drop start).take (stop - start) := by
  simp [slice, toList, ByteArray.data_extract, Array.toList_extract, List.extract]

/-- The length counts the bytes. -/
theorem length_eq (t : Text) : t.length = t.toList.length := by
  simp [length, toList]

/-- An index finds the byte that the list has there. -/
theorem byte?_eq (t : Text) (i : Nat) : t.byte? i = t.toList[i]? := by
  unfold byte? toList
  split
  · next h => rw [List.getElem?_eq_getElem (by simpa using h)]; rfl
  · next h => rw [List.getElem?_eq_none (by simpa using h)]

@[simp] theorem length_append (a b : Text) : (a ++ b).length = a.length + b.length := by
  simp [length_eq]

/-- Concatenation is associative, so chains of pieces need no brackets. -/
theorem append_assoc (a b c : Text) : a ++ b ++ c = a ++ (b ++ c) := by
  ext1
  simp

@[simp] theorem empty_append (t : Text) : empty ++ t = t := by
  ext1
  simp

@[simp] theorem append_empty (t : Text) : t ++ empty = t := by
  ext1
  simp

/-- The bytes of a list of texts are those of its texts in order. -/
theorem toList_concat (ts : List Text) : (concat ts).toList = ts.flatMap toList := by
  suffices h : ∀ (ts : List Text) (a : Text),
      (ts.foldl append a).toList = a.toList ++ ts.flatMap toList by
    simpa [concat] using h ts empty
  intro ts
  induction ts with
  | nil => simp
  | cons t rest ih =>
    intro a
    rw [List.foldl_cons, ih]
    change (a ++ t).toList ++ _ = _
    simp

@[simp] theorem concat_nil : concat [] = empty := rfl

@[simp] theorem concat_cons (t : Text) (ts : List Text) : concat (t :: ts) = t ++ concat ts := by
  ext1
  simp [toList_concat]

@[simp] theorem isEmpty_iff {t : Text} : t.isEmpty = true ↔ t = empty := by
  rw [isEmpty, beq_iff_eq, length_eq, List.length_eq_zero_iff, ← toList_inj, toList_empty]

end Text

end EcmaTree
