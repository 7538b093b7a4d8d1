import Mathlib.Data.List.Nodup
import Mathlib.Data.List.Pairwise
import Precond.Compare.Basic

/-! Functions under other names. A function of the second program whose name is new is taken for the one
that the first program has at its address; a function whose name is not new is taken for the one of its
name, wherever it is. So one that stands where a function was that has moved away is taken for that
one, which is still there (`Compare.Displaces`), and no two other functions are taken for the same
(`Compare.canonical_renamed`). -/

namespace Precond.Compare

open IR

variable {orig mod : List Sub} {s t o : Sub} {e : Env}

/-- The function of the first program at the address of one whose name is new. -/
def origin? (orig : List Sub) (s : Sub) : Option Sub :=
  if orig.any (·.name == s.name) then none
  else s.addr.bind fun a => orig.reverse.find? (·.addr = some a)

/-- The name of the first function is new, and it stands where the first program has the function that
has the name of the second one. -/
structure Displaces (orig : List Sub) (s t : Sub) : Prop where
  new : ∀ o ∈ orig, o.name ≠ s.name
  old : ∃ o ∈ orig, o.name = t.name ∧ ∃ a, o.addr = some a ∧ s.addr = some a

/-! ### Addresses -/

theorem eq_of_addr {subs : List Sub} {a : Int} (h : (subs.filterMap (·.addr)).Nodup) (hs : s ∈ subs)
    (ht : t ∈ subs) (ha : s.addr = some a) (hb : t.addr = some a) : s = t := by
  have hpairs : subs.Pairwise fun s t => ∀ a ∈ s.addr, ∀ b ∈ t.addr, a ≠ b := by
    simpa [List.Nodup, List.pairwise_filterMap] using h
  have hsymm : Std.Symm fun s t : Sub => ∀ a ∈ s.addr, ∀ b ∈ t.addr, a ≠ b :=
    ⟨fun _ _ h b hb a ha => (h a ha b hb).symm⟩
  by_contra hne
  exact hpairs.forall hs ht hne a ha a hb rfl

/-- A function whose name is not new is not taken for another one. -/
theorem origin?_of_mem (ho : o ∈ orig) (h : o.name = s.name) : origin? orig s = none := by
  have hkept : orig.any (·.name == s.name) = true := List.any_eq_true.mpr ⟨o, ho, beq_iff_eq.mpr h⟩
  rw [origin?, if_pos hkept]

theorem origin?_eq_some (haddr : (orig.filterMap (·.addr)).Nodup) :
    origin? orig s = some o ↔
      (∀ o' ∈ orig, o'.name ≠ s.name) ∧ o ∈ orig ∧ ∃ a, o.addr = some a ∧ s.addr = some a := by
  have hnew : orig.any (·.name == s.name) = true ↔ ¬ ∀ o' ∈ orig, o'.name ≠ s.name := by simp
  rw [origin?]
  split
  · rename_i hany
    exact iff_of_false nofun fun h => hnew.mp hany h.1
  · rename_i hany
    rw [hnew, not_not] at hany
    rw [Option.bind_eq_some_iff]
    constructor
    · rintro ⟨a, ha, hfind⟩
      have hmem : o ∈ orig := List.mem_reverse.mp (List.mem_of_find?_eq_some hfind)
      have hoa := List.find?_some hfind
      exact ⟨hany, hmem, a, of_decide_eq_true hoa, ha⟩
    · rintro ⟨-, hmem, a, hoa, ha⟩
      refine ⟨a, ha, ?_⟩
      have hsome : (orig.reverse.find? (·.addr = some a)).isSome :=
        List.find?_isSome.mpr ⟨o, List.mem_reverse.mpr hmem, decide_eq_true hoa⟩
      obtain ⟨o', hfind⟩ := Option.isSome_iff_exists.mp hsome
      have hmem' : o' ∈ orig := List.mem_reverse.mp (List.mem_of_find?_eq_some hfind)
      have hoa' := List.find?_some hfind
      rw [hfind, eq_of_addr haddr hmem hmem' hoa (of_decide_eq_true hoa')]

theorem displaces_iff (haddr : (orig.filterMap (·.addr)).Nodup) :
    Displaces orig s t ↔ ∃ o, origin? orig s = some o ∧ o.name = t.name := by
  simp only [origin?_eq_some haddr]
  constructor
  · rintro ⟨hnew, o, hmem, hname, haddr⟩
    exact ⟨o, ⟨hnew, hmem, haddr⟩, hname⟩
  · rintro ⟨o, ⟨hnew, hmem, haddr⟩, hname⟩
    exact ⟨hnew, o, hmem, hname, haddr⟩

/-- Two functions that are taken for functions of one name are at one address. -/
theorem eq_of_origin? (horig : (orig.map (·.name)).Nodup) (haddr : (orig.filterMap (·.addr)).Nodup)
    (haddr' : (mod.filterMap (·.addr)).Nodup) {o' : Sub} (hs : s ∈ mod) (ht : t ∈ mod)
    (hos : origin? orig s = some o) (hot : origin? orig t = some o') (h : o.name = o'.name) : s = t := by
  obtain ⟨-, ho, a, hoa, ha⟩ := (origin?_eq_some haddr).mp hos
  obtain ⟨-, ho', b, hob, hb⟩ := (origin?_eq_some haddr).mp hot
  cases List.inj_on_of_nodup_map horig ho ho' h
  cases hoa.symm.trans hob
  exact eq_of_addr haddr' hs ht ha hb

/-! ### The table of names -/

theorem mem_of_find?_name {subs : List Sub} {name : String}
    (h : subs.find? (·.name == name) = some s) : s ∈ subs ∧ s.name = name := by
  have hname := List.find?_some h
  exact ⟨List.mem_of_find?_eq_some h, eq_of_beq hname⟩

theorem renamed_eq (orig mod : List Sub) : renamed orig mod =
    mod.foldl (fun t s => (origin? orig s).elim t fun o => Table.put t s.name o.name) [] := by
  refine List.foldl_ext _ _ _ fun t s _ => ?_
  rw [origin?]
  cases s.addr with
  | none => simp
  | some a =>
    dsimp only
    split
    · rfl
    · rw [Option.bind_some]
      cases orig.reverse.find? (·.addr = some a) <;> rfl

/-- The table has the functions of the second program for which there is another one. -/
theorem lookup_renamed (hmod : (mod.map (·.name)).Nodup) (name : String) :
    (renamed orig mod).lookup name =
      ((mod.find? (·.name == name)).bind (origin? orig)).map (·.name) := by
  have hfold (t : Table String String) :
      (mod.foldl (fun t s => (origin? orig s).elim t fun o => Table.put t s.name o.name) t).lookup name =
        (((mod.find? (·.name == name)).bind (origin? orig)).map (·.name)).or (t.lookup name) := by
    induction mod generalizing t with
    | nil => rfl
    | cons s mod ih =>
      rw [List.map_cons, List.nodup_cons] at hmod
      rw [List.foldl_cons, ih hmod.2, List.find?_cons]
      by_cases hs : s.name = name
      · -- no other function has the name
        have hnone : mod.find? (·.name == name) = none := by
          refine List.find?_eq_none.mpr fun u hu heq => hmod.1 ?_
          rw [hs, ← eq_of_beq heq]
          exact List.mem_map_of_mem hu
        rw [hnone, beq_iff_eq.mpr hs]
        cases ho : origin? orig s with
        | none => simp [ho]
        | some o => simp [ho, hs, Table.lookup_put_self]
      · rw [beq_false_of_ne hs]
        cases origin? orig s with
        | none => rfl
        | some o => rw [Option.elim_some, Table.lookup_put_of_ne _ _ (Ne.symm hs)]
  rw [renamed_eq, hfold, List.lookup_nil, Option.or_none]

variable (hmod : (mod.map (·.name)).Nodup) (he : e.renames = renamed orig mod)

include hmod he

theorem canonical_of_mem (hs : s ∈ mod) :
    e.canonical s.name = ((origin? orig s).map (·.name)).getD s.name := by
  have hfind : mod.find? (·.name == s.name) = some s := by
    have hsome : (mod.find? (·.name == s.name)).isSome :=
      List.find?_isSome.mpr ⟨s, hs, beq_self_eq_true _⟩
    obtain ⟨u, hu⟩ := Option.isSome_iff_exists.mp hsome
    obtain ⟨hmem, hname⟩ := mem_of_find?_name hu
    rw [hu, List.inj_on_of_nodup_map hmod hmem hs hname]
  rw [Env.canonical, he, lookup_renamed hmod, hfind, Option.bind_some]

/-- A name of the first program stays. -/
theorem canonical_of_orig {o : Sub} (ho : o ∈ orig) : e.canonical o.name = o.name := by
  rw [Env.canonical, he, lookup_renamed hmod]
  cases hfind : mod.find? (·.name == o.name) with
  | none => rfl
  | some u =>
    rw [Option.bind_some, origin?_of_mem ho (mem_of_find?_name hfind).2.symm]
    rfl

/-- A name is left as it is, or it becomes one of the first program. -/
theorem canonical_cases (haddr : (orig.filterMap (·.addr)).Nodup) (name : String) :
    e.canonical name = name ∨ ∃ o ∈ orig, e.canonical name = o.name := by
  rw [Env.canonical, he, lookup_renamed hmod]
  cases hu : (mod.find? (·.name == name)).bind (origin? orig) with
  | none => exact .inl rfl
  | some o =>
    obtain ⟨u, -, ho⟩ := Option.bind_eq_some_iff.mp hu
    exact .inr ⟨o, ((origin?_eq_some haddr).mp ho).2.1, rfl⟩

/-- Renaming once more changes nothing, and two functions of the second program are taken for the same
just if one of them stands where the other one was in the first program. -/
theorem canonical_renamed (horig : (orig.map (·.name)).Nodup)
    (haddr : (orig.filterMap (·.addr)).Nodup) (haddr' : (mod.filterMap (·.addr)).Nodup) :
    (∀ name, e.canonical (e.canonical name) = e.canonical name) ∧
      ∀ s ∈ mod, ∀ t ∈ mod, e.canonical s.name = e.canonical t.name ↔
        s = t ∨ Displaces orig s t ∨ Displaces orig t s := by
  refine ⟨fun name => ?_, fun s hs t ht => ?_⟩
  · rcases canonical_cases hmod he haddr name with hname | ⟨o, ho, hname⟩
    · rw [hname, hname]
    · rw [hname, canonical_of_orig hmod he ho]
  have hkept {s t o : Sub} (hs : origin? orig s = some o) (heq : o.name = t.name) :
      origin? orig t = none := origin?_of_mem ((origin?_eq_some haddr).mp hs).2.1 heq
  rw [canonical_of_mem hmod he hs, canonical_of_mem hmod he ht, displaces_iff haddr, displaces_iff haddr]
  cases hos : origin? orig s with
  | none =>
    cases hot : origin? orig t with
    | none =>
      simp only [Option.map_none, Option.getD_none, reduceCtorEq, false_and, exists_false, or_false]
      exact ⟨List.inj_on_of_nodup_map hmod hs ht, congrArg Sub.name⟩
    | some o =>
      simp only [Option.map_none, Option.getD_none, Option.map_some, Option.getD_some, reduceCtorEq,
        false_and, exists_false, false_or, Option.some.injEq, exists_eq_left']
      refine ⟨fun h => .inr h.symm, fun h => ?_⟩
      rcases h with rfl | h
      · cases hos.symm.trans hot
      · exact h.symm
  | some o =>
    cases hot : origin? orig t with
    | none =>
      simp only [Option.map_none, Option.getD_none, Option.map_some, Option.getD_some, reduceCtorEq,
        false_and, exists_false, or_false, Option.some.injEq, exists_eq_left']
      refine ⟨.inr, fun h => ?_⟩
      rcases h with rfl | h
      · cases hos.symm.trans hot
      · exact h
    | some o' =>
      simp only [Option.map_some, Option.getD_some, Option.some.injEq, exists_eq_left']
      constructor
      · exact fun h => .inl (eq_of_origin? horig haddr haddr' hs ht hos hot h)
      · rintro (rfl | h | h)
        · cases hos.symm.trans hot
          rfl
        · cases (hkept hos h).symm.trans hot
        · cases (hkept hot h).symm.trans hos

omit hmod he

/-- A function without blocks. -/
def bare (name : String) (addr : Int) : Sub := ⟨name, "@" ++ name, some addr, [], []⟩

/-- The function `read` moves away, and `peek` is put where it was; `close` is called `shut`. -/
def shuffled : Env :=
  { Env.start .arm [bare "read" 32, bare "peek" 16, bare "shut" 48] with
    renames := renamed [bare "read" 16, bare "close" 48]
      [bare "read" 32, bare "peek" 16, bare "shut" 48] }

theorem canonical_renamed_shuffled :
    ([bare "read" 16, bare "close" 48].map (·.name)).Nodup ∧
      ([bare "read" 16, bare "close" 48].filterMap (·.addr)).Nodup ∧
      (shuffled.subs.map (·.name)).Nodup ∧ (shuffled.subs.filterMap (·.addr)).Nodup ∧
      (∀ name, shuffled.canonical (shuffled.canonical name) = shuffled.canonical name) ∧
      ∀ s ∈ shuffled.subs, ∀ t ∈ shuffled.subs, shuffled.canonical s.name = shuffled.canonical t.name ↔
        s = t ∨ Displaces [bare "read" 16, bare "close" 48] s t ∨
          Displaces [bare "read" 16, bare "close" 48] t s :=
  ⟨by decide, by decide, by decide, by decide,
    canonical_renamed (by decide) rfl (by decide) (by decide) (by decide)⟩

example : shuffled.subs.map (fun s => shuffled.canonical s.name) = ["read", "read", "close"] := by
  decide

end Precond.Compare
