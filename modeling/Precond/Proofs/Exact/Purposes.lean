import Precond.Proofs.Exact.Constants

/-! Constants of the first program are for one purpose each, where the names of the program are legible:
no variable has the name of the result of a function, of the value of a variable at entry or of a value
that is not known (`Analysis.plan_purposes`). Names without separators are legible
(`Analysis.Legible.of_plain`). -/

namespace Precond

open IR Walk

/-- Separated parts at the ends of a name: one is the other one, or has it at its own end. -/
theorem end_of_sep {α : Type} {sep : α} {xs ys ds es : List α} (he : sep ∉ es)
    (h : xs ++ sep :: ds = ys ++ sep :: es) : ds = es ∨ ∃ zs, ds = zs ++ sep :: es := by
  obtain ⟨as, rfl, has⟩ | ⟨cs, rfl, hcs⟩ := List.append_eq_append_iff.mp h
  · cases as with
    | nil => exact .inl (List.cons.inj has).2
    | cons a as => exact .inr ⟨as, (List.cons.inj has).2⟩
  · cases cs with
    | nil => exact .inl (List.cons.inj hcs).2.symm
    | cons c cs => exact absurd ((List.cons.inj hcs).2 ▸ List.mem_append_right _ List.mem_cons_self) he

theorem toList_sep (front back : String) :
    (front ++ "_" ++ back).toList = front.toList ++ '_' :: back.toList := by
  rw [String.toList_append, String.toList_append, List.append_assoc]
  rfl

/-- The name is a number, or it ends in one behind a separator. -/
def Numeric (name : String) : Prop :=
  ∃ k, name = Nat.repr k ∨ ∃ front, name = front ++ "_" ++ Nat.repr k

theorem Numeric.of_sep {front back base : String} {k : Nat}
    (h : front ++ "_" ++ back = base ++ "_" ++ Nat.repr k) : Numeric back := by
  have hl := congrArg String.toList h
  rw [toList_sep, toList_sep] at hl
  rcases end_of_sep (not_mem_repr k) hl with hd | ⟨zs, hd⟩
  · exact ⟨k, .inl (String.toList_inj.mp hd)⟩
  · refine ⟨k, .inr ⟨String.ofList zs, String.toList_inj.mp ?_⟩⟩
    rw [toList_sep, String.toList_ofList, hd]

theorem sep_inj {front back back' : String} (h : front ++ "_" ++ back = front ++ "_" ++ back') :
    back = back' := by
  have hl := congrArg String.toList h
  rw [toList_sep, toList_sep] at hl
  exact String.toList_inj.mp (List.cons.inj (List.append_cancel_left hl)).2

namespace Analysis

variable {p : Program} {o : Options}

/-- What stands in front of a variable in the name of a constant. -/
def Fronts (p : Program) (front : String) : Prop := Mentions p front ∨ front = "init"

/-- The names of a program tell what a constant is for. -/
structure Legible (p : Program) : Prop where
  worded : Uses p v → ¬ Numeric v.name
  plain : Fronts p f → Uses p u → Uses p v → v.name ≠ f ++ "_" ++ u.name
  apart : Fronts p f → Fronts p g → Uses p u → Uses p v →
    f ++ "_" ++ u.name = g ++ "_" ++ v.name → f = g
  entry : ¬ Mentions p "init"

/-- A name without a separator that is not a number. -/
def Plain (name : String) : Prop :=
  '_' ∉ name.toList ∧ (name.toList.any fun c => !c.isDigit) = true

instance (name : String) : Decidable (Plain name) := inferInstanceAs (Decidable (_ ∧ _))

/-- Names without separators are legible. -/
theorem Legible.of_plain (ha : p.arch ∈ Arch.all) (hv : ∀ s ∈ p.subs, ∀ v ∈ s.vars, Plain v.name)
    (hf : ¬ Mentions p "init") : Legible p := by
  have hplain {v : Var} (h : Uses p v) : Plain v.name := by
    rcases h with h | ⟨s, hs, h⟩
    · obtain ⟨hsep, -, c, hc, hdigit⟩ :=
        Arch.register_names _ ha v (Arch.conventional_registers _ ha v h)
      exact ⟨hsep, List.any_eq_true.mpr ⟨c, hc, by rw [hdigit]; rfl⟩⟩
    · exact hv s hs v h
  have hsep {front back : String} : '_' ∈ (front ++ "_" ++ back).toList := by
    rw [toList_sep]
    exact List.mem_append_right _ List.mem_cons_self
  refine ⟨fun {v} hu => ?_, fun _ _ hu he => (hplain hu).1 (he ▸ hsep), fun {f g u v} _ _ hu hv he => ?_,
    hf⟩
  · obtain ⟨hnone, hany⟩ := hplain hu
    obtain ⟨c, hc, hdigit⟩ := List.any_eq_true.mp hany
    rintro ⟨k, he | ⟨front, he⟩⟩
    · rw [he, Nat.toList_repr] at hc
      rw [Nat.isDigit_of_mem_toDigits (by decide) (by decide) hc] at hdigit
      cases hdigit
    · exact hnone (he ▸ hsep)
  · have hl := congrArg String.toList he
    rw [toList_sep, toList_sep] at hl
    rw [append_sep_inj (hplain hu).1 (hplain hv).1 hl] at hl
    exact String.toList_inj.mp (List.append_cancel_right hl)

/-- The name and the sort of a constant of a program as it is. -/
def Spells (p : Program) (m : Made) : Prop :=
  match m.purpose with
  | .var v => Uses p v ∧ v.type.sort = .ok m.sort ∧ m.name = v.name
  | .entry v => Uses p v ∧ v.type.sort = .ok m.sort ∧ m.name = "init" ++ "_" ++ v.name
  | .flag f => m.sort = .bool ∧ m.name = calledFront ++ f
  | .fresh base => m.sort ≠ .bool ∧ ∃ k, m.name = base ++ "_" ++ Nat.repr k
  | .result name => m.name = name ∧ ∃ f v, Mentions p f ∧ Uses p v ∧ v.type.sort = .ok m.sort ∧
      name = f ++ "_" ++ v.name

variable {m m' : Made} {e e₁ : Env}

theorem Spells.of_names (hf : e.freshen = false) (hs : e.names.space = none) (hn : e.Names e₁ m)
    (hw : m.Within (vocabulary p o)) : Spells p m := by
  obtain ⟨purpose, name, sort⟩ := m
  unfold Env.Names at hn
  rw [hf] at hn
  cases purpose with
  | var v => exact ⟨hw.1, hw.2, hn⟩
  | entry v => exact ⟨hw.1, hw.2, hn⟩
  | flag f => exact ⟨hw, hn⟩
  | result name => exact ⟨hn, hw⟩
  | fresh base =>
    obtain ⟨k, -, -, hname⟩ := hn
    simp only [NameSupply.numbered, NameSupply.fresh, hs] at hname
    obtain ⟨-, type, htype⟩ := hw
    exact ⟨Ty.sort_ne_bool htype, k, hname⟩

/-- Only flags are truth values. -/
theorem Spells.flag_of_sort (h : Spells p m) (hs : m.sort = .bool) : ∃ f, m.purpose = .flag f := by
  unfold Spells at h
  split at h
  · exact absurd hs (Ty.sort_ne_bool h.2.1)
  · exact absurd hs (Ty.sort_ne_bool h.2.1)
  · exact ⟨_, ‹_›⟩
  · exact absurd hs h.1
  · obtain ⟨-, f, v, -, -, hsort, -⟩ := h
    exact absurd hs (Ty.sort_ne_bool hsort)

/-- A constant whose name does not end in a number stands for a variable, or it has the name of a
variable behind another one. -/
theorem Spells.worded (h : Spells p m) (hs : m.sort ≠ .bool)
    (hn : ¬ ∃ base k, m.name = base ++ "_" ++ Nat.repr k) :
    (∃ v, Uses p v ∧ v.type.sort = .ok m.sort ∧ m.name = v.name ∧ m.purpose = .var v) ∨
    ∃ f v, Uses p v ∧ v.type.sort = .ok m.sort ∧ m.name = f ++ "_" ++ v.name ∧
      (f = "init" ∧ m.purpose = .entry v ∨ Mentions p f ∧ m.purpose = .result m.name) := by
  unfold Spells at h
  split at h
  · exact .inl ⟨_, h.1, h.2.1, h.2.2, ‹_›⟩
  · exact .inr ⟨_, _, h.1, h.2.1, h.2.2, .inl ⟨rfl, ‹_›⟩⟩
  · exact absurd h.1 hs
  · exact absurd ⟨_, h.2⟩ hn
  · rename_i hp
    obtain ⟨hname, f, v, hf, hv, hsort, he⟩ := h
    exact .inr ⟨f, v, hv, hsort, hname.trans he, .inr ⟨hf, hname ▸ hp⟩⟩

theorem fronts {f : String} {P Q : Prop} (h : f = "init" ∧ P ∨ Mentions p f ∧ Q) : Fronts p f :=
  h.elim (fun h => .inr h.1) fun h => .inl h.1

namespace Legible

variable (hl : Legible p)
include hl

/-- Only values that are not known have names that end in numbers. -/
theorem fresh_of_name {base : String} {k : Nat} (h : Spells p m) (hs : m.sort ≠ .bool)
    (hn : m.name = base ++ "_" ++ Nat.repr k) : ∃ n, m.purpose = .fresh n := by
  unfold Spells at h
  split at h
  · exact absurd ⟨k, .inr ⟨base, h.2.2.symm.trans hn⟩⟩ (hl.worded h.1)
  · exact absurd (.of_sep (h.2.2.symm.trans hn)) (hl.worded h.1)
  · exact absurd h.1 hs
  · exact ⟨_, ‹_›⟩
  · obtain ⟨hname, f, v, -, hv, -, rfl⟩ := h
    exact absurd (.of_sep (hname.symm.trans hn)) (hl.worded hv)

/-- Constants of one name and one sort are for one purpose, unless both are numbered. -/
theorem purpose_eq (h : Spells p m) (h' : Spells p m') (hn : m.name = m'.name)
    (hs : m.sort = m'.sort) :
    m.purpose = m'.purpose ∨ (∃ n, m.purpose = .fresh n) ∧ ∃ n, m'.purpose = .fresh n := by
  by_cases hbool : m.sort = .bool
  · left
    obtain ⟨f, hp⟩ := h.flag_of_sort hbool
    obtain ⟨g, hp'⟩ := h'.flag_of_sort (hs ▸ hbool)
    rw [Spells, hp] at h
    rw [Spells, hp'] at h'
    have hl := congrArg String.toList (h.2.symm.trans (hn.trans h'.2))
    rw [String.toList_append, String.toList_append] at hl
    rw [hp, hp', String.toList_inj.mp (List.append_cancel_left hl)]
  by_cases hnum : ∃ base k, m.name = base ++ "_" ++ Nat.repr k
  · obtain ⟨base, k, hname⟩ := hnum
    exact .inr ⟨hl.fresh_of_name h hbool hname, hl.fresh_of_name h' (hs ▸ hbool) (hn ▸ hname)⟩
  left
  obtain ⟨v, hv, hsort, hname, hp⟩ | ⟨f, v, hv, hsort, hname, hp⟩ := h.worded hbool hnum <;>
    obtain ⟨u, hu, hsort', hname', hp'⟩ | ⟨g, u, hu, hsort', hname', hp'⟩ :=
      h'.worded (hs ▸ hbool) (hn ▸ hnum)
  · rw [hp, hp', Var.eq_of_sort (hname.symm.trans (hn.trans hname')) hsort (hs ▸ hsort')]
  · exact absurd (hname.symm.trans (hn.trans hname')) (hl.plain (fronts hp') hu hv)
  · exact absurd (hname'.symm.trans (hn.symm.trans hname)) (hl.plain (fronts hp) hv hu)
  · have he := hname.symm.trans (hn.trans hname')
    obtain rfl := hl.apart (fronts hp) (fronts hp') hv hu he
    obtain rfl := Var.eq_of_sort (sep_inj he) hsort (hs ▸ hsort')
    obtain ⟨rfl, hp⟩ | ⟨hf, hp⟩ := hp <;> obtain ⟨hinit, hp'⟩ | ⟨hg, hp'⟩ := hp'
    · rw [hp, hp']
    · exact absurd hg hl.entry
    · exact absurd (hinit ▸ hf) hl.entry
    · rw [hp, hp', hn]

/-- The name of a result tells the function and the variable. -/
theorem result_unique {name : String} (h : (vocabulary p o).result name ran) :
    ∃! fv : String × Var, Mentions p fv.1 ∧ Uses p fv.2 ∧ fv.2.type.sort = .ok ran ∧
      name = fv.1 ++ "_" ++ fv.2.name := by
  obtain ⟨f, v, hf, hv, hsort, rfl⟩ := h
  refine ⟨(f, v), ⟨hf, hv, hsort, rfl⟩, ?_⟩
  rintro ⟨g, u⟩ ⟨hg, hu, hsort', he⟩
  obtain rfl : g = f := hl.apart (.inl hg) (.inl hf) hu hv he.symm
  exact congrArg (Prod.mk g) (Var.eq_of_sort (sep_inj he.symm) hsort' hsort)

end Legible

/-- A constant of the first program is for one purpose, and no two values that are not known have one
constant. The constant for a result belongs to one function and one variable. -/
theorem plan_purposes {ps : List Program} {run : Plan} (hl : Legible p)
    (h : plan o (p :: ps) = .ok run) :
    (∃ made, run.Makes .orig (vocabulary p o) made) ∧
    ∀ made, run.Makes .orig (vocabulary p o) made → run.Records .orig made ∧
      (made.Pairwise fun m m' => m.name = m'.name → m.sort = m'.sort →
        m.purpose = m'.purpose ∧ ∀ n, m.purpose ≠ .fresh n) ∧
      ∀ m ∈ made, ∀ name, m.purpose = .result name → ∃! fv : String × Var, Mentions p fv.1 ∧
        Uses p fv.2 ∧ fv.2.type.sort = .ok m.sort ∧ name = fv.1 ++ "_" ++ fv.2.name := by
  refine ⟨(plan_makes h).1, fun made hmade => ?_⟩
  obtain ⟨hf, hs⟩ := plan_orig_names h
  obtain ⟨hnames, hwithin⟩ := hmade.names
  have hspells (m : Made) (hm : m ∈ made) : Spells p m :=
    .of_names hf hs (hnames.names m hm) (hwithin m hm)
  refine ⟨hmade.records, ?_, fun m hm name hp => ?_⟩
  · refine hnames.apart.imp_of_mem fun {m m'} hm hm' hapart hn hsort => ?_
    have hnotboth : ¬ ((∃ n, m.purpose = .fresh n) ∧ ∃ n, m'.purpose = .fresh n) := by
      rintro ⟨⟨n, hp⟩, n', hp'⟩
      exact hapart (by rw [hp]; rfl) (by rw [hp']; rfl) hn
    have hp := (hl.purpose_eq (hspells m hm) (hspells m' hm') hn hsort).resolve_right hnotboth
    exact ⟨hp, fun n hfresh => hnotboth ⟨⟨n, hfresh⟩, n, hp ▸ hfresh⟩⟩
  · have hw := hwithin m hm
    rw [Made.Within, hp] at hw
    exact hl.result_unique hw

theorem dividing_legible : Legible dividing := by
  refine .of_plain (by decide) (by decide) ?_
  rintro ⟨s, hs, hname | ⟨b, hb, j, hj, tid, ret, hcall, -⟩⟩ <;> cases List.mem_singleton.mp hs
  · exact absurd hname (by decide)
  · cases List.mem_singleton.mp hb
    cases List.mem_singleton.mp hj
    cases hcall

theorem plan_purposes_dividing : ∃ run, plan (checking true) [dividing] = .ok run ∧
    ∃ made, run.Makes .orig (vocabulary dividing (checking true)) made ∧
      made.Pairwise fun m m' => m.name = m'.name → m.sort = m'.sort →
        m.purpose = m'.purpose ∧ ∀ n, m.purpose ≠ .fresh n := by
  obtain ⟨run, hrun⟩ : ∃ run, plan (checking true) [dividing] = .ok run := ⟨_, rfl⟩
  obtain ⟨⟨made, hmade⟩, hpurposes⟩ := plan_purposes dividing_legible hrun
  exact ⟨run, hrun, made, hmade, (hpurposes made hmade).2.1⟩

end Analysis

end Precond
