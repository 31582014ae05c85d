import Gullet.Machine

/-!
# Groups open in step

What is subject to grouping is kept in several parts: the list of open groups, their settings, the
bindings, and a map for each kind of variable. Each part opens and closes its groups by itself. Here it
is shown that no change brings them out of step.
-/

namespace Gullet

/-- Every map of the store has the given number of open groups. -/
structure Store.HasDepth (s : Store) (n : Nat) : Prop where
  ints : s.ints.depth = n
  dimens : s.dimens.depth = n
  tokenLists : s.tokenLists.depth = n
  catCodes : s.catCodes.depth = n

namespace Store.HasDepth

variable {s : Store} {n : Nat}

theorem write (h : s.HasDepth n) (scope : Scope) (w : Write) : (s.write scope w).HasDepth n := by
  obtain ⟨hi, hd, ht, hc⟩ := h
  cases w with
  | int v n => exact ⟨by simpa [Store.write, setInt] using hi, hd, ht, hc⟩
  | dimen index d => exact ⟨hi, by simpa [Store.write, setDimen] using hd, ht, hc⟩
  | tokenList index ts => exact ⟨hi, hd, by simpa [Store.write, setTokenList] using ht, hc⟩
  | catCode c code => exact ⟨hi, hd, ht, by simpa [Store.write, setCatCode] using hc⟩

theorem beginGroup (h : s.HasDepth n) : s.beginGroup.HasDepth (n + 1) := by
  obtain ⟨hi, hd, ht, hc⟩ := h
  constructor <;> simp [Store.beginGroup, *]

theorem endGroup (h : s.HasDepth n) : s.endGroup.HasDepth (n - 1) := by
  obtain ⟨hi, hd, ht, hc⟩ := h
  constructor <;> simp [Store.endGroup, *]

end Store.HasDepth

namespace Scopes

/-- Every part of what is subject to grouping has as many groups open as are listed. -/
structure Even (s : Scopes) : Prop where
  settings : s.settings.length = s.groups.length
  bindings : s.bindings.depth = s.groups.length
  store : s.store.HasDepth s.groups.length

/-- A change that neither opens nor closes a group and is no part of reading verbatim text. -/
def Change.IsPlain : Change → Prop
  | .bound _ _ _ | .written _ _ | .restyled _ => True
  | _ => False

/-- A change that leaves no category codes of another depth behind. -/
def Change.Fits (s : Scopes) : Change → Prop
  | .restored codes => codes.depth = s.groups.length
  | _ => True

theorem verbatimStore_hasDepth {s : Store} {n : Nat} (h : s.HasDepth n) :
    (verbatimStore s).HasDepth n := by
  unfold verbatimStore
  generalize List.range 128 = codePoints
  induction codePoints generalizing s with
  | nil => exact h
  | cons c rest ih => exact ih (h.write .inner (.catCode c (verbatimCode (s.catCode c))))

namespace Even

variable {s : Scopes}

theorem openGroup (h : s.Even) (g : Group) : (s.openGroup g).Even where
  settings := by simp [Scopes.openGroup, h.settings]
  bindings := by simp [Scopes.openGroup, h.bindings]
  store := h.store.beginGroup

theorem closeGroup (h : s.Even) : s.closeGroup.Even where
  settings := by simp [Scopes.closeGroup, h.settings]
  bindings := by simp [Scopes.closeGroup, h.bindings]
  store := by simpa [Scopes.closeGroup] using h.store.endGroup

theorem mapSettings (h : s.Even) (f : Settings → Settings) : (s.mapSettings f).Even := by
  have hlength := h.settings
  unfold Scopes.mapSettings
  split
  · exact ⟨h.settings, h.bindings, h.store⟩
  case h_2 current outer hs => exact ⟨by simpa [hs] using hlength, h.bindings, h.store⟩

theorem withStore (h : s.Even) {store : Store} (hstore : store.HasDepth s.groups.length) :
    Even { s with store } :=
  ⟨h.settings, h.bindings, hstore⟩

/-- **No change brings the parts out of step.** -/
theorem apply (h : s.Even) {c : Change} (hc : c.Fits s) : (s.apply c).Even := by
  cases c with
  | opened g => exact h.openGroup g
  | closed g => exact h.closeGroup
  | bound scope ref command => exact ⟨h.settings, by simpa [Scopes.apply] using h.bindings, h.store⟩
  | written scope w => exact h.withStore (h.store.write scope w)
  | restyled settings => exact h.mapSettings fun _ => settings
  | verbatim => exact h.withStore (verbatimStore_hasDepth h.store)
  | restored codes =>
    obtain ⟨hi, hd, ht, -⟩ := h.store
    exact h.withStore ⟨hi, hd, ht, hc⟩

end Even

end Scopes

/-- A machine in its first state is in step. -/
theorem Machine.even_ofBuiltIns (builtIns : List BuiltIn) : (ofBuiltIns builtIns).scopes.Even :=
  ⟨rfl, rfl, ⟨rfl, rfl, rfl, rfl⟩⟩

theorem Machine.even_standard : standard.scopes.Even :=
  (even_ofBuiltIns vocabulary).apply (c := .bound .everywhere (.active '~') _) trivial

end Gullet
