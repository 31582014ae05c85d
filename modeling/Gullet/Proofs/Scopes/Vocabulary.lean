import Gullet.Machine
import Gullet.Proofs.Scope.Layers

/-!
# What references stand for at the start

The references of the standard machine stand for what the vocabulary says, and for nothing else but `~`.
-/

namespace Gullet.Machine

@[simp] theorem lookup_change_bound (m : Machine) (scope : Scope) (ref other : CommandRef)
    (command : Command) :
    (m.change (.bound scope ref command)).lookup other =
      if ref = other then command else m.lookup other := by
  have hget := ScopedMap.get?_insert m.scopes.bindings scope ref other command
  show ((m.scopes.bindings.insert scope ref command).get? other).getD .undefined = _
  rw [hget]
  by_cases h : ref = other
  · simp [h]
  · have hne : compare ref other ≠ .eq := fun heq => h (Std.LawfulEqOrd.eq_of_compare heq)
    simp [h, hne, lookup, Bindings.lookup]

/-- A control sequence stands for what it is bound to from the start, or for nothing. -/
theorem lookup_standard (name : String) :
    standard.lookup (.controlSequence name) = (ofBuiltIns vocabulary).lookup (.controlSequence name) := by
  let tie : Command := .character .other '\u00a0'
  have hbound : standard.lookup (.controlSequence name) =
      ((ofBuiltIns vocabulary).change (.bound .everywhere (.active '~') tie)).lookup
        (.controlSequence name) := rfl
  rw [hbound, lookup_change_bound, if_neg (by simp)]

/-- A name that is not in the vocabulary stands for nothing. -/
theorem lookup_standard_of_not_contains {name : String}
    (h : (vocabulary.map fun b => b.name).contains name = false) :
    standard.lookup (.controlSequence name) = .undefined := by
  have hentries : ((vocabulary.map fun b =>
      (CommandRef.controlSequence b.name, b.command)).map Prod.fst).contains
        (.controlSequence name) = false := by
    rw [List.map_map]
    simpa using h
  have hlist : (ScopedMap.ofList (vocabulary.map fun b =>
      (CommandRef.controlSequence b.name, b.command))).get? (.controlSequence name) = none :=
    Std.TreeMap.getElem?_ofList_of_contains_eq_false hentries
  rw [lookup_standard]
  exact congrArg (·.getD .undefined) hlist

/-- No name is listed twice. -/
theorem nodup_vocabulary : (vocabulary.map fun b => b.name).Nodup := by decide +kernel

/-- A name in the vocabulary stands for the command that is listed with it. -/
theorem lookup_standard_of_find? {name : String} {command : Command}
    (h : (vocabulary.find? fun b => b.name = name).map (fun b => b.command) = some command) :
    standard.lookup (.controlSequence name) = command := by
  obtain ⟨b, hfind, rfl⟩ := Option.map_eq_some_iff.1 h
  have hmem := List.mem_of_find?_eq_some hfind
  have hname : b.name = name := by simpa using List.find?_some hfind
  subst hname
  have hdistinct : (vocabulary.map fun b => (CommandRef.controlSequence b.name, b.command)).Pairwise
      fun a b => ¬ compare a.1 b.1 = .eq := by
    refine List.pairwise_map.2 ((List.pairwise_map.1 nodup_vocabulary).imp fun hne heq => hne ?_)
    exact CommandRef.controlSequence.inj (Std.LawfulEqOrd.eq_of_compare heq)
  have hentry : (CommandRef.controlSequence b.name, b.command) ∈
      vocabulary.map fun b => (CommandRef.controlSequence b.name, b.command) :=
    List.mem_map_of_mem hmem
  have hlist : (ScopedMap.ofList (vocabulary.map fun b =>
      (CommandRef.controlSequence b.name, b.command))).get? (.controlSequence b.name) =
        some b.command :=
    Std.TreeMap.getElem?_ofList_of_mem (Std.ReflCmp.compare_self) hdistinct hentry
  rw [lookup_standard]
  exact congrArg (·.getD .undefined) hlist

example : standard.lookup (.controlSequence "iftrue") = .expansion .ifTrue :=
  lookup_standard_of_find? (by cbv)

end Gullet.Machine
