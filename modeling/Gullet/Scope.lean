import Std.Data.TreeMap

/-!
# Maps under grouping

A scoped map is a map in which groups can be opened and closed. A local write is undone when the
innermost group ends; a global write survives the end of every group. For each open group the map keeps
what the keys written in it had before their first local write there.
-/

namespace Gullet

/-- How long a write lasts. -/
inductive Scope where
  /-- Until the innermost group ends. -/
  | inner
  /-- Beyond the end of every group. -/
  | everywhere
deriving DecidableEq, Repr, Inhabited

/-- A map with a log of what to undo for each open group, innermost first. In a log, `none` says that
the key was absent. -/
structure ScopedMap (K : Type u) (V : Type v) [Ord K] where
  /-- The entries that can be seen now. -/
  visible : Std.TreeMap K V := ∅
  /-- What to undo at the end of each open group. -/
  undo : List (Std.TreeMap K (Option V)) := []

namespace ScopedMap

variable {K : Type u} {V : Type v} [Ord K]

instance : Inhabited (ScopedMap K V) := ⟨{}⟩

/-- The map with the given entries and no open group. -/
def ofList (entries : List (K × V)) : ScopedMap K V := { visible := Std.TreeMap.ofList entries }

/-- The value that can be seen at a key. -/
def get? (m : ScopedMap K V) (k : K) : Option V := m.visible[k]?

/-- A write that is undone at the end of the innermost group. -/
def insertLocal (m : ScopedMap K V) (k : K) (v : V) : ScopedMap K V :=
  match m.undo with
  | [] => { m with visible := m.visible.insert k v }
  | log :: outer =>
    { visible := m.visible.insert k v
      undo := (if log.contains k then log else log.insert k m.visible[k]?) :: outer }

/-- A write that survives the end of every group. -/
def insertGlobal (m : ScopedMap K V) (k : K) (v : V) : ScopedMap K V :=
  { visible := m.visible.insert k v
    undo := m.undo.map (·.erase k) }

/-- A write in the given scope. -/
def insert (m : ScopedMap K V) (scope : Scope) (k : K) (v : V) : ScopedMap K V :=
  match scope with
  | .inner => m.insertLocal k v
  | .everywhere => m.insertGlobal k v

/-- Opens a group. -/
def beginGroup (m : ScopedMap K V) : ScopedMap K V := { m with undo := ∅ :: m.undo }

/-- Puts back what a log says about one key. -/
def restore (visible : Std.TreeMap K V) (k : K) (old : Option V) : Std.TreeMap K V :=
  match old with
  | none => visible.erase k
  | some v => visible.insert k v

/-- Closes the innermost group and undoes its local writes. Absent if no group is open. -/
def endGroup? (m : ScopedMap K V) : Option (ScopedMap K V) :=
  match m.undo with
  | [] => none
  | log :: outer => some { visible := log.foldl restore m.visible, undo := outer }

/-- Closes the innermost group, if one is open. -/
def endGroup (m : ScopedMap K V) : ScopedMap K V := m.endGroup?.getD m

/-- The number of open groups. -/
def depth (m : ScopedMap K V) : Nat := m.undo.length

/-- The entries that can be seen, in the order of their keys. -/
def entries (m : ScopedMap K V) : List (K × V) := m.visible.toList

/-- The number of entries that can be seen. -/
def size (m : ScopedMap K V) : Nat := m.visible.size

@[simp] theorem depth_insertLocal (m : ScopedMap K V) (k : K) (v : V) :
    (m.insertLocal k v).depth = m.depth := by
  unfold insertLocal depth
  split <;> simp_all

@[simp] theorem depth_insertGlobal (m : ScopedMap K V) (k : K) (v : V) :
    (m.insertGlobal k v).depth = m.depth := by
  simp [insertGlobal, depth]

@[simp] theorem depth_insert (m : ScopedMap K V) (scope : Scope) (k : K) (v : V) :
    (m.insert scope k v).depth = m.depth := by
  cases scope <;> simp [insert]

@[simp] theorem depth_beginGroup (m : ScopedMap K V) : m.beginGroup.depth = m.depth + 1 := rfl

/-- A group can be closed exactly if one is open. -/
theorem endGroup?_eq_none_iff (m : ScopedMap K V) : m.endGroup? = none ↔ m.depth = 0 := by
  unfold endGroup? depth
  split <;> simp_all

@[simp] theorem visible_insert (m : ScopedMap K V) (scope : Scope) (k : K) (v : V) :
    (m.insert scope k v).visible = m.visible.insert k v := by
  cases scope with
  | inner =>
    simp only [insert, insertLocal]
    split <;> rfl
  | everywhere => rfl

theorem endGroup_of_undo {m : ScopedMap K V} {log : Std.TreeMap K (Option V)}
    {outer : List (Std.TreeMap K (Option V))} (h : m.undo = log :: outer) :
    m.endGroup = { visible := log.foldl restore m.visible, undo := outer } := by
  simp [endGroup, endGroup?, h]

/-- Where no group is open, closing one changes nothing. -/
theorem endGroup_of_depth_eq_zero {m : ScopedMap K V} (h : m.depth = 0) : m.endGroup = m := by
  rw [endGroup, (endGroup?_eq_none_iff m).2 h]
  rfl

@[simp] theorem depth_endGroup (m : ScopedMap K V) : m.endGroup.depth = m.depth - 1 := by
  cases h : m.undo with
  | nil => rw [endGroup_of_depth_eq_zero (by simp [depth, h])]; simp [depth, h]
  | cons log outer => rw [endGroup_of_undo h]; simp [depth, h]

end ScopedMap

end Gullet
