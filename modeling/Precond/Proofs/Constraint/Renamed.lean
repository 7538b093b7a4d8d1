import Precond.Proofs.Constraint.Formula
import Precond.Proofs.Term.Renamed

/-! Constraints under other names. Constraints are alike under a renaming if the formulas of both are the
same (`IR.Renaming.Alike`). A substitution makes up for variables that count in its body only: what it
replaces need not be seen before it (`IR.Renaming.Alike.subst`). -/

namespace Precond

open IR

/-- What is replaced is found. -/
theorem Swap.find?_isSome {s : TSort} {swaps : List Swap} {t : Term s} {w : Swap} (hw : w ∈ swaps)
    (hsort : w.sort = s) (h : w.old.same t = true) : (find? swaps t).isSome = true := by
  suffices H : ∀ (ws : List Swap) (found : Option (Term s)), found.isSome ∨ w ∈ ws →
      (ws.foldl (fun found w =>
        if w.old.same t then (if h : w.sort = s then some (h ▸ w.new) else found) else found)
        found).isSome from H swaps none (.inr hw)
  intro ws
  induction ws with
  | nil => exact fun found hf => hf.resolve_right List.not_mem_nil
  | cons v ws ih =>
    intro found hf
    rw [List.foldl_cons]
    refine ih _ ?_
    by_cases hv : v = w
    · subst hv
      rw [if_pos h, dif_pos hsort]
      exact .inl rfl
    · refine hf.imp (fun hfound => ?_) fun hmem => (List.mem_cons.mp hmem).resolve_left (Ne.symm hv)
      split
      · split
        · rfl
        · exact hfound
      · exact hfound

theorem Swap.mem_ofPairs {pairs : List (SomeTerm × SomeTerm)} {ws : List Swap} (h : ofPairs pairs = .ok ws)
    {p : SomeTerm × SomeTerm} (hp : p ∈ pairs) : ∃ w ∈ ws, p.1 = ⟨w.sort, w.old⟩ := by
  induction pairs generalizing ws with
  | nil => cases hp
  | cons q pairs ih =>
    rw [ofPairs] at h
    split at h
    · rename_i w hw
      obtain ⟨vs, hvs, hws⟩ := bind_eq_ok h
      cases hws
      rcases List.mem_cons.mp hp with rfl | hp
      · refine ⟨w, List.mem_cons_self, ?_⟩
        obtain ⟨⟨s, old⟩, ⟨s', new⟩⟩ := p
        rw [ofPair?] at hw
        split at hw <;> cases hw
        rfl
      · obtain ⟨v, hv, heq⟩ := ih hvs hp
        exact ⟨v, List.mem_cons_of_mem _ hv, heq⟩
    · cases h

namespace IR.Renaming

variable (ρ : Renaming)

/-- A constant is replaced by a term, and the constant with the new name by the same. -/
structure Trades (X : Var → Prop) (p p' : SomeTerm × SomeTerm) : Prop where
  old : ρ.Consts p.1 p'.1
  new : ρ.Same X p.2 p'.2

/-- Replacements of a constant, and of the constant with the new name. -/
inductive Swaps (X : Var → Prop) : Swap → Swap → Prop
  | mk {n : String} {s : TSort} {x x' : Term s} : ρ.Same X ⟨s, x⟩ ⟨s, x'⟩ →
    Swaps X ⟨.const n s, x⟩ ⟨.const (ρ.name n s) s, x'⟩

/-- Both constraints have no formula, or their formulas are the same. -/
def Alike (X : Var → Prop) (c c' : Constr) : Prop :=
  Tally (fun F F' => ρ.Same X ⟨_, F⟩ ⟨_, F'⟩) c.plain c'.plain

variable {ρ} {X Y : Var → Prop} {m m' : Model} {i j : Nat} {c c' yes yes' no no' : Constr}
  {hyps hyps' goals goals' : List Constr} {ws ws' : List Swap} {pairs pairs' : List (SomeTerm × SomeTerm)}

/-! ### Substitutions -/

theorem Trades.ofPairs (h : List.Forall₂ (ρ.Trades X) pairs pairs') :
    Tally (List.Forall₂ (ρ.Swaps X)) (Swap.ofPairs pairs) (Swap.ofPairs pairs') := by
  induction h with
  | nil => exact .ok .nil
  | @cons p p' _ _ hp _ ih =>
    obtain ⟨old, s', x⟩ := p
    obtain ⟨old', s'', x'⟩ := p'
    obtain ⟨⟨n, s, rfl, rfl⟩, hnew⟩ := hp
    cases hnew.level
    unfold Swap.ofPairs Swap.ofPair?
    dsimp only
    by_cases hs : s' = s
    · subst hs
      rw [dif_pos rfl, dif_pos rfl]
      exact ih.bind fun _ _ hws => .pure (.cons (.mk hnew) hws)
    · rw [dif_neg hs, dif_neg hs]
      exact .error

/-- What replaces a constant is the same as what replaces the constant with the new name. -/
theorem Swaps.find (h : List.Forall₂ (ρ.Swaps X) ws ws') (n : String) (s : TSort) :
    Option.Rel (fun x x' => ρ.Same X ⟨s, x⟩ ⟨s, x'⟩) (Swap.find? ws (.const n s))
      (Swap.find? ws' (.const (ρ.name n s) s)) := by
  suffices H : ∀ found found' : Option (Term s),
      Option.Rel (fun x x' => ρ.Same X ⟨s, x⟩ ⟨s, x'⟩) found found' →
      Option.Rel (fun x x' => ρ.Same X ⟨s, x⟩ ⟨s, x'⟩)
        (ws.foldl (fun found w => if w.old.same (.const n s) then
          (if h : w.sort = s then some (h ▸ w.new) else found) else found) found)
        (ws'.foldl (fun found w => if w.old.same (.const (ρ.name n s) s) then
          (if h : w.sort = s then some (h ▸ w.new) else found) else found) found') from
    H none none .none
  induction h with
  | nil => exact fun _ _ hfound => hfound
  | cons hw _ ih =>
    intro found found' hfound
    obtain @⟨k, r, x, x', hx⟩ := hw
    rw [List.foldl_cons, List.foldl_cons]
    refine ih _ _ ?_
    by_cases hr : r = s
    · subst hr
      have hnames : (ρ.name k r == ρ.name n r) = (k == n) := by
        rw [beq_eq_decide, beq_eq_decide]
        exact decide_eq_decide.mpr name_inj
      have hsame : (Spine.const (ρ.name k r) r).same (Spine.const (ρ.name n r) r) =
          (Spine.const k r).same (Spine.const n r) := congrArg (· && r == r) hnames
      by_cases hk : (Spine.const k r).same (Spine.const n r) = true
      · rw [if_pos hk, if_pos (hsame.trans hk), dif_pos rfl, dif_pos rfl]
        exact .some hx
      · rw [if_neg hk, if_neg (hsame ▸ hk)]
        exact hfound
    · rw [dif_neg hr, dif_neg hr, ite_self, ite_self]
      exact hfound

/-- After a substitution a variable counts if it has been replaced or counts already. -/
theorem Sees.update (h : List.Forall₂ (ρ.Swaps X) ws ws')
    (hX : ∀ n s, ρ.Counts Y n s → ρ.Counts X n s ∨ ∃ w ∈ ws, w.sort = s ∧ w.old.same (.const n s) = true)
    (hm : ρ.Sees X m m') : ρ.Sees Y (m.update ws) (m'.update ws') := by
  refine ⟨fun {n s} hc => ?_, hm.func⟩
  show (Swap.find? ws' _).elim _ _ = (Swap.find? ws _).elim _ _
  have hfind := Swaps.find h n s
  rcases hX n s hc with hc | ⟨w, hw, hs, hsame⟩
  · revert hfind
    cases Swap.find? ws (.const n s) <;> cases Swap.find? ws' (.const (ρ.name n s) s) <;> intro hfind
    · exact hm.const hc
    · cases hfind
    · cases hfind
    · cases hfind with
      | some hx => exact eq_of_heq (Sigma.mk.inj (hx.value m m' hm)).2
  · have hsome := Swap.find?_isSome hw hs hsame
    revert hfind hsome
    cases Swap.find? ws (.const n s) <;> cases Swap.find? ws' (.const (ρ.name n s) s) <;> intro hfind hsome
    · cases hsome
    · cases hfind
    · cases hfind
    · cases hfind with
      | some hx => exact eq_of_heq (Sigma.mk.inj (hx.value m m' hm)).2

/-! ### Constraints -/

theorem Alike.mono (h : ρ.Alike X c c') (hX : ∀ v, ρ.Moves v → X v → Y v) : ρ.Alike Y c c' :=
  Tally.mono h fun _ _ _ _ hF => hF.mono hX

theorem Alike.goal {p p' : Term .bool} (h : ρ.Same X ⟨_, p⟩ ⟨_, p'⟩) (name name' : String)
    (tid tid' : Option String) : ρ.Alike X (.goal i name p tid) (.goal j name' p' tid') := .ok h

theorem Alike.plains (h : List.Forall₂ (ρ.Alike X) goals goals') :
    Tally (List.Forall₂ fun F F' => ρ.Same X ⟨.bool, F⟩ ⟨.bool, F'⟩) (Constr.plains goals)
      (Constr.plains goals') := by
  induction h with
  | nil => exact .ok .nil
  | cons hc _ ih =>
    rw [Constr.plains, Constr.plains]
    exact Tally.bind hc fun _ _ hF => ih.bind fun _ _ hFs => .pure (.cons hF hFs)

theorem Same.conj {Fs Fs' : List (Term .bool)}
    (h : List.Forall₂ (fun F F' => ρ.Same X ⟨.bool, F⟩ ⟨.bool, F'⟩) Fs Fs') :
    ρ.Same X ⟨_, Term.conj Fs⟩ ⟨_, Term.conj Fs'⟩ := by
  refine .of_holds fun m m' hm => ?_
  rw [Constr.holds_conj, Constr.holds_conj]
  induction h with
  | nil => rfl
  | cons hF _ ih => rw [List.all_cons, List.all_cons, ih, hF.holds hm]

theorem Alike.clause (hh : List.Forall₂ (ρ.Alike X) hyps hyps') (hg : List.Forall₂ (ρ.Alike X) goals goals') :
    ρ.Alike X (.clause i hyps goals) (.clause j hyps' goals') := by
  unfold Alike
  rw [Constr.plain, Constr.plain]
  refine (Alike.plains hh).bind fun Fs Fs' hFs => (Alike.plains hg).bind fun Gs Gs' hGs => .pure ?_
  cases hFs with
  | nil => exact Same.conj hGs
  | cons hF hFs =>
    refine .of_holds fun m m' hm => ?_
    rw [List.isEmpty_cons, List.isEmpty_cons, if_neg Bool.false_ne_true, if_neg Bool.false_ne_true,
      Spine.holds_implies, Spine.holds_implies, (Same.conj (.cons hF hFs)).holds hm, (Same.conj hGs).holds hm]

theorem Alike.branch {p p' : Term .bool} (hp : ρ.Same X ⟨_, p⟩ ⟨_, p'⟩) (jump jump' : String)
    (hy : ρ.Alike X yes yes') (hn : ρ.Alike X no no') :
    ρ.Alike X (.branch i jump p yes no) (.branch j jump' p' yes' no') := by
  unfold Alike
  rw [Constr.plain, Constr.plain]
  refine Tally.bind hy fun F F' hF => Tally.bind hn fun G G' hG => .pure (.of_holds fun m m' hm => ?_)
  rw [Spine.holds_ite, Spine.holds_ite, hp.holds hm, hF.holds hm, hG.holds hm]

/-- What a substitution replaces need not be seen before it. -/
theorem Alike.subst (hp : List.Forall₂ (ρ.Trades X) pairs pairs')
    (hX : ∀ n s, ρ.Counts Y n s → ρ.Counts X n s ∨
      ∃ p ∈ pairs, p.1 = ⟨s, .const n s⟩) (hc : ρ.Alike Y c c') :
    ρ.Alike X (.subst i c pairs) (.subst j c' pairs') := by
  have honconst {ws ws' : List Swap} (h : List.Forall₂ (ρ.Swaps X) ws ws') :
      (∀ w ∈ ws, w.OnConst) ∧ ∀ w ∈ ws', w.OnConst := by
    induction h with
    | nil => exact ⟨nofun, nofun⟩
    | cons hw _ ih =>
      obtain ⟨-⟩ := hw
      exact ⟨List.forall_mem_cons.mpr ⟨⟨_, rfl⟩, ih.1⟩, List.forall_mem_cons.mpr ⟨⟨_, rfl⟩, ih.2⟩⟩
  unfold Alike
  rw [Constr.plain, Constr.plain]
  refine Tally.bind hc fun F F' hF => Tally.bind (A := fun ws ws' => List.Forall₂ (ρ.Swaps X) ws ws' ∧
    Swap.ofPairs pairs = .ok ws) ((Trades.ofPairs hp).mono fun ws _ hws _ h => ⟨h, hws⟩) ?_
  rintro ws ws' ⟨hws, heq⟩
  refine .pure (.of_holds fun m m' hm => ?_)
  have hupdate : ρ.Sees Y (m.update ws) (m'.update ws') := by
    refine hm.update hws fun n s hn => (hX n s hn).imp_right ?_
    rintro ⟨p, hp, hconst⟩
    obtain ⟨w, hw, hpw⟩ := Swap.mem_ofPairs heq hp
    have hold : (⟨w.sort, w.old⟩ : SomeTerm) = ⟨s, .const n s⟩ := hpw.symm.trans hconst
    refine ⟨w, hw, congrArg Sigma.fst hold, ?_⟩
    have hsame : SomeTerm.same ⟨w.sort, w.old⟩ ⟨s, .const n s⟩ = true := by
      rw [hold]
      exact SomeTerm.const_same n s
    exact hsame
  exact (Spine.eval_replace (honconst hws).2 m' F').trans
    ((hF.holds hupdate).trans (Spine.eval_replace (honconst hws).1 m F).symm)

/-- A clause with a goal that is not true is not true, whatever its other goals are. -/
theorem Alike.clause_false {p p' : Term .bool} (hp : ∀ m, p.holds m = false) (hp' : ∀ m, p'.holds m = false)
    (name name' : String) (tid tid' : Option String) {k k' : Nat} (hc : ρ.Alike Y c c') :
    ρ.Alike X (.clause i [] [.goal k name p tid, c]) (.clause j [] [.goal k' name' p' tid', c']) := by
  have hplain {i k : Nat} {name : String} {p : Term .bool} {tid : Option String} {c : Constr} :
      (Constr.clause i [] [.goal k name p tid, c]).plain =
        c.plain >>= fun F => pure (Term.and [p, F]) := by
    simp only [Constr.plain, Constr.plains, pure_bind, bind_assoc]
    rfl
  unfold Alike
  rw [hplain, hplain]
  refine Tally.bind hc fun F F' _ => .pure (.of_holds fun m m' _ => ?_)
  simp only [Spine.holds_and, List.all_cons, hp, hp', Bool.false_and]

end IR.Renaming

end Precond
