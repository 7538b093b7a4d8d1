import Precond.Proofs.Constraint.Given
import Precond.Proofs.Walk.Around
import Precond.Proofs.Walk.Lockstep

/-! A constraint echoes another one if it has a formula where the other one has, and the formulas are
true in the same models. Walks for postconditions that echo each other come to preconditions that do
(`Walk.visitSub_echoes`). -/

namespace Precond

open IR

namespace Constr

/-- One constraint has a formula just where the other one has, and the formulas say the same. -/
structure Echoes (c d : Constr) : Prop where
  formal : c.Formal ↔ d.Formal
  truth : c.Formal → ∀ m, d.truth m = c.truth m

/-- The second constraints, in whatever order, say together what the first ones say. -/
structure EchoAll (cs ds : List Constr) : Prop where
  length : ds.length = cs.length
  formal : (∀ c ∈ cs, c.Formal) ↔ ∀ d ∈ ds, d.Formal
  truth : (∀ c ∈ cs, c.Formal) → ∀ m, (ds.all fun d => d.truth m) = cs.all fun c => c.truth m

variable {i j : Nat} {c d : Constr} {cs ds es : List Constr}

theorem Echoes.refl (c : Constr) : c.Echoes c := ⟨Iff.rfl, fun _ _ => rfl⟩

theorem Echoes.symm (h : c.Echoes d) : d.Echoes c :=
  ⟨h.formal.symm, fun hf m => (h.truth (h.formal.mpr hf) m).symm⟩

theorem Echoes.goal {name : String} {value : Term .bool} {tid : Option String} :
    (goal i name value tid).Echoes (goal j name value tid) :=
  ⟨iff_of_true (formal_goal ..) (formal_goal ..), fun _ _ => rfl⟩

theorem EchoAll.refl (cs : List Constr) : EchoAll cs cs := ⟨rfl, Iff.rfl, fun _ _ => rfl⟩

theorem EchoAll.trans (h₁ : EchoAll cs ds) (h₂ : EchoAll ds es) : EchoAll cs es where
  length := h₂.length.trans h₁.length
  formal := h₁.formal.trans h₂.formal
  truth hf m := (h₂.truth (h₁.formal.mp hf) m).trans (h₁.truth hf m)

theorem EchoAll.append {cs' ds' : List Constr} (h₁ : EchoAll cs ds) (h₂ : EchoAll cs' ds') :
    EchoAll (cs ++ cs') (ds ++ ds') where
  length := by rw [List.length_append, List.length_append, h₁.length, h₂.length]
  formal := by rw [List.forall_mem_append, List.forall_mem_append, h₁.formal, h₂.formal]
  truth hf m := by
    rw [List.forall_mem_append] at hf
    rw [List.all_append, List.all_append, h₁.truth hf.1, h₂.truth hf.2]

theorem Echoes.all (h : c.Echoes d) : EchoAll [c] [d] where
  length := rfl
  formal := by rw [List.forall_mem_singleton, List.forall_mem_singleton, h.formal]
  truth hf m := by
    rw [List.forall_mem_singleton] at hf
    rw [List.all_cons, List.all_cons, h.truth hf]

/-- A list of one constraint echoes another one. -/
theorem EchoAll.single (h : EchoAll [c] [d]) : c.Echoes d where
  formal := by simpa using h.formal
  truth hf m := by simpa using h.truth (List.forall_mem_singleton.mpr hf) m

theorem EchoAll.perm (h : cs.Perm ds) : EchoAll cs ds where
  length := h.length_eq.symm
  formal := forall_congr' fun c => by rw [h.mem_iff]
  truth _ m := by
    rw [Bool.eq_iff_iff, List.all_eq_true, List.all_eq_true]
    exact forall_congr' fun c => by rw [h.mem_iff]

theorem EchoAll.of_forall₂ (h : List.Forall₂ Echoes cs ds) : EchoAll cs ds := by
  induction h with
  | nil => exact .refl []
  | cons hc _ ih => exact hc.all.append ih

theorem formal_clause_iff {hyps goals : List Constr} :
    (clause i hyps goals).Formal ↔ (∀ c ∈ hyps, c.Formal) ∧ ∀ c ∈ goals, c.Formal :=
  ⟨fun h => ⟨fun _ hc => h.child (List.mem_append_left _ hc),
    fun _ hc => h.child (List.mem_append_right _ hc)⟩, fun h => formal_clause h.1 h.2⟩

theorem formal_branch_iff {jump : String} {p : Term .bool} {yes no : Constr} :
    (branch i jump p yes no).Formal ↔ yes.Formal ∧ no.Formal :=
  ⟨fun h => ⟨h.child List.mem_cons_self, h.child (List.mem_cons_of_mem _ List.mem_cons_self)⟩,
    fun h => formal_branch h.1 h.2⟩

theorem Echoes.clause {hyps goals hyps' goals' : List Constr} (hh : EchoAll hyps hyps')
    (hg : EchoAll goals goals') : (clause i hyps goals).Echoes (clause j hyps' goals') where
  formal := by rw [formal_clause_iff, formal_clause_iff, hh.formal, hg.formal]
  truth h m := by
    obtain ⟨hf, hf'⟩ := formal_clause_iff.mp h
    rw [truth_clause hf hf', truth_clause (hh.formal.mp hf) (hg.formal.mp hf'), hh.truth hf,
      hg.truth hf']

theorem Echoes.branch {yes yes' no no' : Constr} (jump : String) (p : Term .bool)
    (hy : yes.Echoes yes') (hn : no.Echoes no') :
    (branch i jump p yes no).Echoes (branch j jump p yes' no') where
  formal := by rw [formal_branch_iff, formal_branch_iff, hy.formal, hn.formal]
  truth h m := by
    obtain ⟨hf, hf'⟩ := formal_branch_iff.mp h
    rw [truth_branch hf hf', truth_branch (hy.formal.mp hf) (hn.formal.mp hf'), hy.truth hf,
      hn.truth hf']

theorem Echoes.subst {pairs : List (SomeTerm × SomeTerm)} (hc : ∀ p ∈ pairs, p.1.IsConst)
    (h : c.Echoes d) : (subst i c pairs).Echoes (subst j d pairs) where
  formal := ⟨fun hf => formal_subst_congr hf h.formal.mp, fun hf => formal_subst_congr hf h.formal.mpr⟩
  truth hf m := by
    rw [truth_subst_pairs hc hf, truth_subst_pairs hc (formal_subst_congr hf h.formal.mp),
      h.truth (hf.child (List.mem_singleton_self _))]

end Constr

/-- Walks for postconditions that echo each other. -/
def Twin.echoing (policy : Side → Env) (side : Side) (bound : Int) : Twin where
  scope := .any policy
  side := side
  constants := True
  numbered := True
  low := 0
  bound := bound
  bound' := bound
  rel := Constr.Echoes
  goal _ := .goal
  clause _ hh hg := .clause (.of_forall₂ (hh.imp fun _ _ h => by cases h; exact .goal))
    (.of_forall₂ hg)
  branch _ hy hn := .branch _ _ hy hn
  subst _ hc hp := .subst (hp True.intro) hc

/-- A walk of which the numbers of constraints are told. -/
def Twin.rising (policy : Side → Env) (side : Side) (bound : Int) (low : Nat) : Twin where
  scope := .any policy
  side := side
  constants := False
  numbered := False
  low := low
  bound := bound
  bound' := bound
  rel c _ := low ≤ c.id
  goal hi := hi
  clause hi _ _ := hi
  branch hi _ _ := hi
  subst hi _ _ := hi

namespace Walk

variable {side : Side} {w w₁ v : World} {s : Sub} {post post' c : Constr} {K : Constr → Prop}

/-- The precondition for a new postcondition is a new constraint. -/
theorem visitSub_rises {low : Nat} (hw : low ≤ w.nodes) (hpost : low ≤ post.id)
    (hroot : (w.env side).frame.root ≠ some (s.tid, post.id)) (h : visitSub side post s w = .ok c w₁) :
    low ≤ c.id := by
  let T := Twin.rising (fun side => (w.env side).policy) side (w.env side).unrollBound low
  have hunder : w.Under T.scope := ⟨fun _ => rfl, fun _ => True.intro⟩
  have hl : T.Linked none (fun _ => True) w w := {
    under := hunder
    under' := hunder
    settled := fun _ => rfl
    tied := World.Same.refl w
    inlining := fun _ => rfl
    register := fun h => h.elim
    low := hw
    constant := fun h => h.elim
    bound := rfl
    bound' := rfl }
  obtain ⟨_, _, _, -, -, -, hheld, -⟩ := visitSub_lockstep (T := T) rfl True.intro hl
    ⟨True.intro, hpost⟩ (.fresh hroot hroot) h
  exact hheld.rel

/-- Two worlds from which walks go on in the same way, with the nodes of the first one. -/
structure Level (K : Constr → Prop) (w v : World) : Prop where
  same : w.Same v
  inlining (side : Side) : (v.env side).inlining = (w.env side).inlining
  bound (side : Side) : (v.env side).unrollBound = (w.env side).unrollBound
  register : Constr.Register K w.nodes
  constant : w.Constant

theorem Level.linked (h : Level K w v) (side : Side) :
    (Twin.echoing (fun side => (w.env side).policy) side (w.env side).unrollBound).Linked none K w v where
  under := ⟨fun _ => rfl, fun _ => True.intro⟩
  under' := ⟨fun side => (h.same.before side).policy.symm ▸ rfl, fun _ => True.intro⟩
  settled _ := rfl
  tied := h.same
  inlining := h.inlining
  register _ := h.register
  low := Nat.zero_le _
  constant _ := h.constant
  bound := rfl
  bound' := h.bound side

/-- A walk for a postcondition, and one for a postcondition that echoes it. -/
theorem visitSub_echoes (hl : Level K w v) (hpost : K post) (he : post.Echoes post')
    (hroot : (w.env side).frame.root ≠ some (s.tid, post.id))
    (hroot' : (v.env side).frame.root ≠ some (s.tid, post'.id))
    (h : visitSub side post s w = .ok c w₁) :
    ∃ c' v₁ K₁, visitSub side post' s v = .ok c' v₁ ∧ (∀ c, K c → K₁ c) ∧ Level K₁ w₁ v₁ ∧ K₁ c ∧
      c.Echoes c' := by
  obtain ⟨c', v₁, K₁, hc', hgrows, hl₁, hheld, -⟩ := visitSub_lockstep
    (T := Twin.echoing (fun side => (w.env side).policy) side (w.env side).unrollBound) rfl True.intro
    (hl.linked side) ⟨hpost, he⟩ (.fresh hroot hroot') h
  have hbound {u u₁ : World} {p d : Constr} (h : visitSub side p s u = .ok d u₁) (side' : Side) :
      (u₁.env side').unrollBound = (u.env side').unrollBound :=
    (((visitSub_kept (S := .any fun side => (u.env side).policy) True.intro).of_ok
      ⟨fun _ => rfl, fun _ => True.intro⟩ h).env side').unrollBound
  refine ⟨c', v₁, K₁, hc', hgrows, ?_, hheld.node, hheld.rel⟩
  exact {
    same := hl₁.tied
    inlining := hl₁.inlining
    bound := fun side' => by rw [hbound hc', hbound h, hl.bound]
    register := hl₁.register True.intro
    constant := hl₁.constant True.intro }

end Walk

end Precond
