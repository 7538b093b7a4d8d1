import Precond.Proofs.Term.Value
import Precond.Smt.Formula

/-! One text, read with two tables of declared names. What is read with one of them has in one model
the value that what is read with the other one has in another model, if this is so for the terms of the
names (`Smt.assertions_alike`). A name may be declared in one of the tables only, as long as the text
can be read with both. -/

namespace Precond

variable {m m' : Model}

namespace Spine

variable {d : List TSort} {s r : TSort}

theorem eval_app_congr {f g : Spine (s :: d) r} {x y : Term s} (hf : f.eval m = g.eval m')
    (hx : x.eval m = y.eval m') : (Spine.app f x).eval m = (Spine.app g y).eval m' := by
  rw [eval, eval, hf, hx]

/-- Functions of so many arguments as there are. -/
theorem eval_saturate_congr {xs ys : List (Term s)}
    (h : List.Forall₂ (fun x y => x.eval m = y.eval m') xs ys)
    (F : (n : Nat) → Fn (List.replicate n s) r) {f : Spine (List.replicate xs.length s) r}
    {g : Spine (List.replicate ys.length s) r} (hf : f.eval m = F xs.length)
    (hg : g.eval m' = F ys.length) : (saturate xs f).eval m = (saturate ys g).eval m' := by
  induction h generalizing F with
  | nil => exact hf.trans hg.symm
  | @cons x y xs ys hxy h ih =>
    refine ih (fun n => F (n + 1) (x.eval m)) ?_ ?_
    · rw [eval, hf]
      rfl
    · rw [eval, hg, hxy]
      rfl

end Spine

/-- The terms have one sort, and one value in both models. -/
inductive SomeTerm.Alike (m m' : Model) : SomeTerm → SomeTerm → Prop
  | mk {x y : Term s} : x.eval m = y.eval m' → SomeTerm.Alike m m' ⟨s, x⟩ ⟨s, y⟩

theorem SomeTerm.alike_iff {t u : SomeTerm} : t.Alike m m' u ↔ t.value m = u.value m' := by
  constructor
  · rintro ⟨h⟩
    exact congrArg (Sigma.mk _) h
  · obtain ⟨s, x⟩ := t
    obtain ⟨s', y⟩ := u
    intro h
    obtain ⟨rfl, h⟩ := Sigma.mk.inj h
    exact .mk (eq_of_heq h)

namespace Smt

open SomeTerm (Alike)

variable {ts us : List SomeTerm} {t u : SomeTerm} {s : TSort}

/-! ### Operators -/

theorem truths_alike (h : List.Forall₂ (Alike m m') ts us) {ps : List (Term .bool)}
    (hp : truths ts = some ps) :
    ∃ qs, truths us = some qs ∧ List.Forall₂ (fun p q => p.eval m = q.eval m') ps qs := by
  induction h generalizing ps with
  | nil =>
    cases hp
    exact ⟨[], rfl, .nil⟩
  | cons hx _ ih =>
    obtain @⟨s, x, y, hxy⟩ := hx
    cases s with
    | bool =>
      obtain ⟨ps, hps, rfl⟩ := Option.map_eq_some_iff.mp hp
      obtain ⟨qs, hqs, hpq⟩ := ih hps
      exact ⟨y :: qs, by rw [truths, hqs]; rfl, .cons hxy hpq⟩
    | bv | mem => cases hp

theorem uniform_alike (h : List.Forall₂ (Alike m m') ts us) {xs : List (Term s)}
    (hx : uniform s ts = some xs) :
    ∃ ys, uniform s us = some ys ∧ List.Forall₂ (fun x y => x.eval m = y.eval m') xs ys := by
  induction h generalizing xs with
  | nil =>
    cases hx
    exact ⟨[], rfl, .nil⟩
  | cons hz _ ih =>
    obtain @⟨s', x, y, hxy⟩ := hz
    rw [uniform] at hx
    split at hx
    · rename_i hs
      subst hs
      obtain ⟨xs, hxs, rfl⟩ := Option.map_eq_some_iff.mp hx
      obtain ⟨ys, hys, hall⟩ := ih hxs
      exact ⟨y :: ys, by rw [uniform, dif_pos rfl, hys]; rfl, .cons hxy hall⟩
    · cases hx

theorem chain_alike {xs ys : List (Term s)}
    (h : List.Forall₂ (fun x y => x.eval m = y.eval m') xs ys) :
    List.Forall₂ (fun p q => p.eval m = q.eval m') (chain xs) (chain ys) := by
  induction h with
  | nil => exact .nil
  | cons hx h ih =>
    cases h with
    | nil => exact .nil
    | cons hy h => exact .cons (Spine.eval_app_congr (Spine.eval_app_congr rfl hx) hy) ih

theorem and_alike {ps qs : List (Term .bool)}
    (h : List.Forall₂ (fun p q => p.eval m = q.eval m') ps qs) :
    (Term.and ps).eval m = (Term.and qs).eval m' :=
  Spine.eval_saturate_congr h (Fn.all · true) rfl rfl

theorem equal_alike (h : List.Forall₂ (Alike m m') ts us) (ht : equal ts = some t) :
    ∃ u, equal us = some u ∧ t.Alike m m' u := by
  cases h with
  | nil => cases ht
  | cons hz h =>
    obtain @⟨s, x, y, hxy⟩ := hz
    obtain ⟨xs, hxs, ht⟩ := Option.bind_eq_some_iff.mp ht
    obtain ⟨ys, hys, hall⟩ := uniform_alike h hxs
    have hchain := chain_alike (List.Forall₂.cons hxy hall)
    simp only [equal, hys, Option.bind_eq_bind, Option.bind_some]
    revert ht hchain
    cases chain (x :: xs) with
    | nil => exact fun ht => nomatch ht
    | cons p ps =>
      cases chain (y :: ys) with
      | nil => exact fun _ hchain => nomatch hchain
      | cons q qs =>
        intro ht hchain
        cases hchain with
        | cons hpq hchain =>
          cases hchain with
          | nil =>
            cases ht
            exact ⟨_, rfl, .mk hpq⟩
          | cons hpq' hchain =>
            cases ht
            exact ⟨_, rfl, .mk (and_alike (.cons hpq (.cons hpq' hchain)))⟩

theorem distinct_alike (h : List.Forall₂ (Alike m m') ts us) (ht : distinct ts = some t) :
    ∃ u, distinct us = some u ∧ t.Alike m m' u := by
  cases h with
  | nil => cases ht
  | cons hz h =>
    obtain @⟨s, x, y, hxy⟩ := hz
    obtain ⟨xs, hxs, ht⟩ := Option.bind_eq_some_iff.mp ht
    obtain ⟨ys, hys, hall⟩ := uniform_alike h hxs
    cases ht
    refine ⟨_, by rw [distinct, hys]; rfl, .mk ?_⟩
    exact Spine.eval_saturate_congr (.cons hxy hall) (Fn.pairwiseDistinct s · [] true) rfl rfl

theorem imply_alike {ps qs : List (Term .bool)} {p : Term .bool}
    (h : List.Forall₂ (fun p q => p.eval m = q.eval m') ps qs) (hp : imply ps = some p) :
    ∃ q, imply qs = some q ∧ p.eval m = q.eval m' := by
  have himplies {a b a' b' : Term .bool} (ha : a.eval m = a'.eval m') (hb : b.eval m = b'.eval m') :
      (a.implies b).eval m = (a'.implies b').eval m' :=
    Spine.eval_app_congr (Spine.eval_app_congr rfl ha) hb
  induction h generalizing p with
  | nil => cases hp
  | @cons a a' ps qs ha h ih =>
    cases h with
    | nil => cases hp
    | cons hb h =>
      cases h with
      | nil =>
        cases hp
        exact ⟨_, rfl, himplies ha hb⟩
      | cons hc h =>
        obtain ⟨b, hps, hp⟩ := Option.bind_eq_some_iff.mp hp
        cases hp
        obtain ⟨b', hqs, hb'⟩ := ih hps
        exact ⟨a'.implies b', Option.bind_eq_some_iff.mpr ⟨b', hqs, rfl⟩, himplies ha hb'⟩

theorem connective_alike {build : List (Term .bool) → Term .bool}
    (hbuild : ∀ {ps qs}, List.Forall₂ (fun p q => p.eval m = q.eval m') ps qs →
      (build ps).eval m = (build qs).eval m')
    (h : List.Forall₂ (Alike m m') ts us) (ht : connective build ts = some t) :
    ∃ u, connective build us = some u ∧ t.Alike m m' u := by
  obtain ⟨ps, hps, ht⟩ := Option.bind_eq_some_iff.mp ht
  obtain ⟨qs, hqs, hpq⟩ := truths_alike h hps
  simp only [connective, hqs, Option.bind_eq_bind, Option.bind_some]
  split at ht
  · cases ht
  · rename_i hne
    cases ht
    refine ⟨_, if_neg fun hq => hne ?_, .mk (hbuild hpq)⟩
    rw [List.isEmpty_iff] at hq
    cases hq
    cases hpq
    rfl

/-- Operators on two words of one width. -/
theorem words_alike (build : {w : Nat} → Term (.bv w) → Term (.bv w) → SomeTerm) {x y : SomeTerm}
    (hbuild : ∀ {w : Nat} {x y x' y' : Term (.bv w)}, x.eval m = x'.eval m' → y.eval m = y'.eval m' →
      (build x y).Alike m m' (build x' y'))
    {x' y' : SomeTerm} (hx : x.Alike m m' x') (hy : y.Alike m m' y')
    (ht : (do
      let ⟨w, x⟩ ← word? x
      let ⟨v, y⟩ ← word? y
      if h : v = w then some (build x (h ▸ y)) else none) = some t) :
    ∃ u, (do
      let ⟨w, x⟩ ← word? x'
      let ⟨v, y⟩ ← word? y'
      if h : v = w then some (build x (h ▸ y)) else none) = some u ∧ t.Alike m m' u := by
  obtain @⟨s, x, x', hx⟩ := hx
  obtain @⟨s', y, y', hy⟩ := hy
  cases s with
  | bool | mem => cases ht
  | bv w =>
    cases s' with
    | bool | mem => cases ht
    | bv v =>
      by_cases hv : v = w
      · subst hv
        cases (dif_pos rfl).symm.trans ht
        exact ⟨_, dif_pos rfl, hbuild hx hy⟩
      · cases (dif_neg hv).symm.trans ht

theorem binWords_alike {op : BvBin} (h : List.Forall₂ (Alike m m') ts us)
    (ht : binWords op ts = some t) : ∃ u, binWords op us = some u ∧ t.Alike m m' u := by
  have hbuild {w : Nat} {x y x' y' : Term (.bv w)} (hx : x.eval m = x'.eval m')
      (hy : y.eval m = y'.eval m') : Alike m m' ⟨_, Term.bin op x y⟩ ⟨_, Term.bin op x' y'⟩ :=
    .mk (Spine.eval_app_congr (Spine.eval_app_congr rfl hx) hy)
  match h with
  | .nil | .cons _ .nil | .cons _ (.cons _ (.cons _ _)) => cases ht
  | .cons hx (.cons hy .nil) =>
    exact words_alike (fun x y => ⟨_, Term.bin op x y⟩) hbuild hx hy ht

theorem cmpWords_alike {op : BvCmp} (h : List.Forall₂ (Alike m m') ts us)
    (ht : cmpWords op ts = some t) : ∃ u, cmpWords op us = some u ∧ t.Alike m m' u := by
  have hbuild {w : Nat} {x y x' y' : Term (.bv w)} (hx : x.eval m = x'.eval m')
      (hy : y.eval m = y'.eval m') : Alike m m' ⟨_, Term.cmp op x y⟩ ⟨_, Term.cmp op x' y'⟩ :=
    .mk (Spine.eval_app_congr (Spine.eval_app_congr rfl hx) hy)
  match h with
  | .nil | .cons _ .nil | .cons _ (.cons _ (.cons _ _)) => cases ht
  | .cons hx (.cons hy .nil) =>
    exact words_alike (fun x y => ⟨_, Term.cmp op x y⟩) hbuild hx hy ht

theorem unWord_alike {op : BvUn} (h : List.Forall₂ (Alike m m') ts us)
    (ht : unWord op ts = some t) : ∃ u, unWord op us = some u ∧ t.Alike m m' u := by
  match h with
  | .nil | .cons _ (.cons _ _) => cases ht
  | .cons hx .nil =>
    obtain @⟨s, x, x', hx⟩ := hx
    cases s with
    | bool | mem => cases ht
    | bv w =>
      cases ht
      exact ⟨_, rfl, .mk (Spine.eval_app_congr rfl hx)⟩

theorem implied_alike (h : List.Forall₂ (Alike m m') ts us)
    (ht : (do return ⟨_, ← imply (← truths ts)⟩) = some t) :
    ∃ u : SomeTerm, (do return ⟨_, ← imply (← truths us)⟩) = some u ∧ t.Alike m m' u := by
  obtain ⟨ps, hps, ht⟩ := Option.bind_eq_some_iff.mp ht
  obtain ⟨p, hp, ht⟩ := Option.bind_eq_some_iff.mp ht
  cases ht
  obtain ⟨qs, hqs, hpq⟩ := truths_alike h hps
  obtain ⟨q, hq, hpq⟩ := imply_alike hpq hp
  refine ⟨⟨_, q⟩, ?_, .mk hpq⟩
  exact Option.bind_eq_some_iff.mpr ⟨qs, hqs, Option.bind_eq_some_iff.mpr ⟨q, hq, rfl⟩⟩

theorem chosen_alike {c c' : Term .bool} {x y x' y' : SomeTerm} (hc : c.eval m = c'.eval m')
    (hx : x.Alike m m' x') (hy : y.Alike m m' y')
    (ht : (if h : y.1 = x.1 then some (⟨_, Term.ite c x.2 (h ▸ y.2)⟩ : SomeTerm) else none) = some t) :
    ∃ u, (if h : y'.1 = x'.1 then some (⟨_, Term.ite c' x'.2 (h ▸ y'.2)⟩ : SomeTerm) else none) =
      some u ∧ t.Alike m m' u := by
  obtain @⟨s, x, x', hx⟩ := hx
  obtain @⟨s', y, y', hy⟩ := hy
  by_cases hs : s' = s
  · subst hs
    cases (dif_pos rfl).symm.trans ht
    refine ⟨_, dif_pos rfl, .mk ?_⟩
    exact Spine.eval_app_congr (Spine.eval_app_congr (Spine.eval_app_congr rfl hc) hx) hy
  · cases (dif_neg hs).symm.trans ht

/-- An operator takes arguments of the same values to the same value. -/
theorem applyNamed_alike {name : String} (h : List.Forall₂ (Alike m m') ts us)
    (ht : applyNamed name ts = some t) : ∃ u, applyNamed name us = some u ∧ t.Alike m m' u := by
  unfold applyNamed at ht ⊢
  split at ht
  · exact binWords_alike h ht
  · exact cmpWords_alike h ht
  · exact unWord_alike h ht
  -- connectives, equality and choice
  split at ht
  · obtain _ | ⟨⟨hp⟩, ⟨⟩⟩ := h
    cases ht
    exact ⟨_, rfl, .mk (Spine.eval_app_congr rfl hp)⟩
  · exact connective_alike and_alike h ht
  · exact connective_alike (Spine.eval_saturate_congr · (Fn.any · false) rfl rfl) h ht
  · exact connective_alike (Spine.eval_saturate_congr · (Fn.parity · false) rfl rfl) h ht
  · exact implied_alike h ht
  · exact implied_alike h ht
  · exact equal_alike h ht
  · exact equal_alike h ht
  · exact distinct_alike h ht
  · obtain _ | ⟨⟨hc⟩, _ | ⟨⟨hx⟩, _ | ⟨⟨hy⟩, ⟨⟩⟩⟩⟩ := h
    exact chosen_alike hc (.mk hx) (.mk hy) ht
  · obtain _ | ⟨⟨hc⟩, _ | ⟨⟨hx⟩, _ | ⟨⟨hy⟩, ⟨⟩⟩⟩⟩ := h
    exact chosen_alike hc (.mk hx) (.mk hy) ht
  -- words and memories
  · obtain _ | ⟨⟨hx⟩, _ | ⟨⟨hy⟩, ⟨⟩⟩⟩ := h
    cases ht
    exact ⟨_, rfl, .mk (Spine.eval_app_congr (Spine.eval_app_congr rfl hx) hy)⟩
  · obtain _ | ⟨⟨hc⟩, _ | ⟨⟨hx⟩, ⟨⟩⟩⟩ := h
    split at ht
    · rename_i hs
      subst hs
      cases ht
      exact ⟨_, dif_pos rfl, .mk (Spine.eval_app_congr (Spine.eval_app_congr rfl hc) hx)⟩
    · cases ht
  · obtain _ | ⟨⟨hc⟩, _ | ⟨⟨hx⟩, _ | ⟨⟨hv⟩, ⟨⟩⟩⟩⟩ := h
    split at ht
    · rename_i hs
      obtain ⟨rfl, rfl⟩ := hs
      cases ht
      refine ⟨_, dif_pos ⟨rfl, rfl⟩, .mk ?_⟩
      exact Spine.eval_app_congr (Spine.eval_app_congr (Spine.eval_app_congr rfl hc) hx) hv
    · cases ht
  · cases ht

theorem applyIndexed_alike {name : String} {indices : List Nat} {x y : SomeTerm}
    (h : x.Alike m m' y) (ht : applyIndexed name indices x = some t) :
    ∃ u, applyIndexed name indices y = some u ∧ t.Alike m m' u := by
  obtain @⟨s, x, y, hxy⟩ := h
  unfold applyIndexed at ht ⊢
  cases s with
  | bool | mem => cases ht
  | bv w =>
    simp only [word?, Option.bind_eq_bind, Option.bind_some] at ht ⊢
    split at ht
    · split at ht
      · rename_i hr
        cases ht
        exact ⟨_, if_pos hr, .mk (Spine.eval_app_congr rfl hxy)⟩
      · cases ht
    · cases ht
      exact ⟨_, rfl, .mk (Spine.eval_app_congr rfl hxy)⟩
    · cases ht
      exact ⟨_, rfl, .mk (Spine.eval_app_congr rfl hxy)⟩
    · cases ht

theorem indexedNumeral_alike {name : String} {w : Nat} (ht : indexedNumeral name w = some t) :
    t.Alike m m' t := by
  unfold indexedNumeral at ht
  split at ht
  · split at ht
    · obtain ⟨n, -, rfl⟩ := Option.map_eq_some_iff.mp ht
      exact .mk rfl
    · cases ht
  · cases ht

/-! ### Texts -/

/-- What a name stands for in both tables has the same value. A name of one table only is none that
stands for something by itself. -/
def Decls.Alike (m m' : Model) (d d' : Decls) : Prop :=
  ∀ name, Option.Rel (SomeTerm.Alike m m') (d.lookup name) (d'.lookup name) ∨
    (d.lookup name = none ∨ d'.lookup name = none) ∧ name ≠ "true" ∧ name ≠ "false"

variable {d d' : Decls}

/-- Names that are bound by a `let`. -/
theorem Decls.Alike.append {b b' : Decls}
    (hb : List.Forall₂ (fun p q => p.1 = q.1 ∧ p.2.Alike m m' q.2) b b') (h : d.Alike m m' d') :
    Decls.Alike m m' (b ++ d) (b' ++ d') := by
  intro name
  induction hb with
  | nil => exact h name
  | @cons p q b b' hpq _ ih =>
    obtain ⟨x, t⟩ := p
    obtain ⟨y, u⟩ := q
    obtain ⟨rfl : x = y, htu⟩ := hpq
    rw [List.cons_append, List.cons_append, List.lookup_cons, List.lookup_cons]
    split
    · exact .inl (.some htu)
    · exact ih

theorem leaf_alike (h : d.Alike m m' d') {k : Token} (ht : leaf d k = some t)
    (hu : leaf d' k = some u) : t.Alike m m' u := by
  have hsame (hv : ∀ m m' : Model, t.2.eval m = t.2.eval m') (he : t = u) : t.Alike m m' u := by
    subst he
    exact .mk (hv m m')
  cases k with
  | symbol name =>
    rw [leaf] at ht hu
    obtain hrel | ⟨hnone, htrue, hfalse⟩ := h name
    · revert ht hu hrel
      cases d.lookup name with
      | none =>
        cases d'.lookup name with
        | some => exact fun _ _ hrel => nomatch hrel
        | none =>
          intro ht hu _
          dsimp only at ht hu
          split at ht
          · rename_i hname
            cases ht
            exact hsame (fun _ _ => rfl) (Option.some.inj ((if_pos hname).symm.trans hu))
          · rename_i hname
            rw [if_neg hname] at hu
            split at ht
            · rename_i hname'
              cases ht
              exact hsame (fun _ _ => rfl) (Option.some.inj ((if_pos hname').symm.trans hu))
            · cases ht
      | some =>
        cases d'.lookup name with
        | none => exact fun _ _ hrel => nomatch hrel
        | some =>
          intro ht hu hrel
          cases ht
          cases hu
          cases hrel
          assumption
    · rcases hnone with hnone | hnone
      · rw [hnone] at ht
        dsimp only at ht
        rw [if_neg htrue, if_neg hfalse] at ht
        cases ht
      · rw [hnone] at hu
        dsimp only at hu
        rw [if_neg htrue, if_neg hfalse] at hu
        cases hu
  | hex ds =>
    obtain ⟨n, hn, rfl⟩ := Option.map_eq_some_iff.mp ht
    exact hsame (fun _ _ => rfl) (Option.some.inj (ht.symm.trans hu))
  | bits ds =>
    obtain ⟨n, hn, rfl⟩ := Option.map_eq_some_iff.mp ht
    exact hsame (fun _ _ => rfl) (Option.some.inj (ht.symm.trans hu))
  | _ => cases ht

theorem mapM_alike {β γ : Type} {R : β → γ → Prop} {xs : List α} {f : α → Option β}
    {g : α → Option γ} (hfg : ∀ x ∈ xs, ∀ b c, f x = some b → g x = some c → R b c) {bs : List β}
    {cs : List γ} (hb : xs.mapM f = some bs) (hc : xs.mapM g = some cs) : List.Forall₂ R bs cs := by
  induction xs generalizing bs cs with
  | nil =>
    cases hb
    cases hc
    exact .nil
  | cons x xs ih =>
    rw [List.mapM_cons] at hb hc
    obtain ⟨b, hfx, hb⟩ := Option.bind_eq_some_iff.mp hb
    obtain ⟨bs, hbs, hb⟩ := Option.bind_eq_some_iff.mp hb
    obtain ⟨c, hgx, hc⟩ := Option.bind_eq_some_iff.mp hc
    obtain ⟨cs, hcs, hc⟩ := Option.bind_eq_some_iff.mp hc
    cases hb
    cases hc
    exact .cons (hfg x List.mem_cons_self b c hfx hgx)
      (ih (fun y hy => hfg y (List.mem_cons_of_mem x hy)) hbs hcs)

/-- A datum that is read with both tables. -/
theorem term_alike {fuel : Nat} {x : Datum} (h : d.Alike m m' d') (ht : term fuel d x = some t)
    (hu : term fuel d' x = some u) : t.Alike m m' u := by
  induction fuel generalizing x d d' t u with
  | zero => cases ht
  | succ fuel ih =>
    unfold term at ht
    split at ht
    · exact leaf_alike h ht hu
    · -- a numeral is read without a table
      rw [term, ht] at hu
      obtain ⟨w, -, hn⟩ := Option.bind_eq_some_iff.mp ht
      cases hu
      exact indexedNumeral_alike hn
    · obtain ⟨b, hb, hbody⟩ := Option.bind_eq_some_iff.mp ht
      rw [term] at hu
      obtain ⟨b', hb', hbody'⟩ := Option.bind_eq_some_iff.mp hu
      refine ih (.append (mapM_alike (fun y _ p q hp hq => ?_) hb hb') h) hbody hbody'
      split at hp
      · obtain ⟨t, ht, rfl⟩ := Option.map_eq_some_iff.mp hp
        obtain ⟨u, hu, rfl⟩ := Option.map_eq_some_iff.mp hq
        exact ⟨rfl, ih h ht hu⟩
      · cases hp
    · exact ih h ht hu
    · obtain ⟨ns, hns, ht⟩ := Option.bind_eq_some_iff.mp ht
      obtain ⟨a, ha, ht⟩ := Option.bind_eq_some_iff.mp ht
      rw [term] at hu
      obtain ⟨ns', hns', hu⟩ := Option.bind_eq_some_iff.mp hu
      obtain ⟨a', ha', hu⟩ := Option.bind_eq_some_iff.mp hu
      cases hns.symm.trans hns'
      obtain ⟨u', hu', htu⟩ := applyIndexed_alike (ih h ha ha') ht
      cases hu.symm.trans hu'
      exact htu
    · rename_i name args _ _ _
      rw [term] at hu <;> try assumption
      split at ht
      · cases ht
      split at hu
      · cases hu
      obtain ⟨ts, hts, ht⟩ := Option.bind_eq_some_iff.mp ht
      obtain ⟨us, hus, hu⟩ := Option.bind_eq_some_iff.mp hu
      obtain ⟨u', hu', htu⟩ := applyNamed_alike
        (mapM_alike (fun _ _ _ _ hy hz => ih h hy hz) hts hus) ht
      cases hu.symm.trans hu'
      exact htu
    · cases ht

theorem assertion_alike {fuel : Nat} {x : Datum} {p q : Option (Term .bool)} (h : d.Alike m m' d')
    (hp : assertion fuel d x = some p) (hq : assertion fuel d' x = some q) :
    Option.Rel (fun p q => p.eval m = q.eval m') p q := by
  unfold assertion at hp
  split at hp
  · split at hp
    · rw [assertion] at hq
      split at hp
      · rename_i p hp'
        cases hp
        split at hq
        · rename_i q hq'
          cases hq
          obtain ⟨hpq⟩ := term_alike h hp' hq'
          exact .some hpq
        · cases hq
      · cases hp
    · cases hp
  · rw [assertion] at hq
    · cases hp
      cases hq
      exact .none
    · assumption
  · cases hp

/-- Commands that assert nothing are passed by. -/
theorem asserted_alike {ps qs : List (Option (Term .bool))}
    (h : List.Forall₂ (Option.Rel fun p q => p.eval m = q.eval m') ps qs) :
    List.Forall₂ (fun p q => p.eval m = q.eval m') (ps.filterMap fun p => p)
      (qs.filterMap fun p => p) := by
  induction h with
  | nil => exact .nil
  | cons hpq _ ih =>
    cases hpq with
    | none => exact ih
    | some hpq => exact .cons hpq ih

/-- A text that is read with both tables: its assertions are true in one model just if they are true in
the other one. -/
theorem assertions_alike {text : String} {ps qs : List (Term .bool)} (h : d.Alike m m' d')
    (hp : assertions d text = some ps) (hq : assertions d' text = some qs) :
    List.Forall₂ (fun p q => p.eval m = q.eval m') ps qs := by
  unfold assertions at hp hq
  extract_lets at hp hq
  split at hp
  · cases hp
  split at hq
  · cases hq
  obtain ⟨xs, hxs, hp⟩ := Option.bind_eq_some_iff.mp hp
  obtain ⟨xs', hxs', hq⟩ := Option.bind_eq_some_iff.mp hq
  cases hxs.symm.trans hxs'
  obtain ⟨found, hfound, hp⟩ := Option.bind_eq_some_iff.mp hp
  obtain ⟨found', hfound', hq⟩ := Option.bind_eq_some_iff.mp hq
  cases hp
  cases hq
  exact asserted_alike (mapM_alike (fun _ _ _ _ ha hb => assertion_alike h ha hb) hfound hfound')

/-! ### Symbols of texts -/

mutual

/-- The symbols of a datum. -/
def Datum.symbols : Datum → List String
  | .atom (.symbol name) => [name]
  | .atom _ => []
  | .list xs => Datum.symbolsAll xs

def Datum.symbolsAll : List Datum → List String
  | [] => []
  | x :: xs => x.symbols ++ Datum.symbolsAll xs

end

theorem Datum.mem_symbolsAll {xs : List Datum} {x : Datum} {name : String} (hx : x ∈ xs)
    (h : name ∈ x.symbols) : name ∈ Datum.symbolsAll xs := by
  induction xs with
  | nil => cases hx
  | cons y xs ih =>
    rw [Datum.symbolsAll, List.mem_append]
    rcases List.mem_cons.mp hx with rfl | hx
    · exact .inl h
    · exact .inr (ih hx)

theorem mapM_congr_mem {β : Type} {xs : List α} {f g : α → Option β} (h : ∀ x ∈ xs, f x = g x) :
    xs.mapM f = xs.mapM g := by
  induction xs with
  | nil => rfl
  | cons x xs ih =>
    rw [List.mapM_cons, List.mapM_cons, h x List.mem_cons_self,
      ih fun y hy => h y (List.mem_cons_of_mem x hy)]

/-- What a datum stands for depends on its symbols only. -/
theorem term_congr {fuel : Nat} {x : Datum} (h : ∀ name ∈ x.symbols, d.lookup name = d'.lookup name) :
    term fuel d x = term fuel d' x := by
  induction fuel generalizing d d' x with
  | zero => rfl
  | succ fuel ih =>
    have hpart {xs : List Datum} {y : Datum} (hxs : ∀ name ∈ Datum.symbolsAll xs, d.lookup name = d'.lookup name)
        (hy : y ∈ xs) : term fuel d y = term fuel d' y :=
      ih fun name hname => hxs name (Datum.mem_symbolsAll hy hname)
    unfold term
    split
    · rename_i t
      cases t with
      | symbol name => rw [leaf, leaf, h name (List.mem_singleton_self _)]
      | _ => rfl
    · rfl
    · rename_i bindings body
      have hbindings : ∀ b ∈ bindings, ∀ name ∈ b.symbols, d.lookup name = d'.lookup name :=
        fun b hb name hname => h name (Datum.mem_symbolsAll (List.mem_cons_of_mem _ List.mem_cons_self)
          (Datum.mem_symbolsAll hb hname))
      have hbody : ∀ name ∈ body.symbols, d.lookup name = d'.lookup name :=
        fun name hname => h name (Datum.mem_symbolsAll
          (List.mem_cons_of_mem _ (List.mem_cons_of_mem _ List.mem_cons_self)) hname)
      rw [mapM_congr_mem fun b hb => ?_]
      · refine Option.bind_congr fun bound _ => ih fun name hname => ?_
        rw [List.lookup_append, List.lookup_append, hbody name hname]
      · have hb := hbindings b hb
        split
        · rw [hpart hb (List.mem_cons_of_mem _ List.mem_cons_self)]
        · rfl
    · rename_i body _
      exact hpart h (List.mem_cons_of_mem _ List.mem_cons_self)
    · rename_i name indices arg
      rw [hpart h (List.mem_cons_of_mem _ List.mem_cons_self)]
    · rename_i name args _ _ _
      have hname : d.lookup name = d'.lookup name :=
        h name (Datum.mem_symbolsAll List.mem_cons_self (List.mem_singleton_self _))
      rw [hname, mapM_congr_mem fun y hy => hpart h (List.mem_cons_of_mem _ hy)]
    · rfl

theorem assertion_congr {fuel : Nat} {x : Datum}
    (h : ∀ name ∈ x.symbols, d.lookup name = d'.lookup name) :
    assertion fuel d x = assertion fuel d' x := by
  unfold assertion
  split
  · split
    · rw [term_congr fun name hname =>
        h name (Datum.mem_symbolsAll (List.mem_cons_of_mem _ List.mem_cons_self) hname)]
    · rfl
  · rfl
  · rfl

/-- The commands of a text. A bare formula stands for the assertion of it. -/
def script (text : String) : String :=
  let body := Text.trim Text.isMargin text.toList
  if startsWith "(assert".toList body then String.ofList body
  else "(assert " ++ String.ofList body ++ ")"

/-- The symbols of a text. -/
def symbols (text : String) : List String := Datum.symbolsAll ((data? (script text)).getD [])

/-- The assertions of a text depend on what its symbols stand for only. -/
theorem assertions_congr {text : String} {ps : List (Term .bool)}
    (h : ∀ name ∈ symbols text, d.lookup name = d'.lookup name) (hp : assertions d text = some ps)
    (hd : d'.all fun e => e.2.2.size == 1) : assertions d' text = some ps := by
  have hscript (d : Decls) : assertions d text =
      (if !d.all (fun e => e.2.2.size == 1) then none else do
        let found ← (← data? (script text)).mapM (assertion ((script text).length + 1) d)
        return found.filterMap fun p => p) := rfl
  rw [hscript] at hp ⊢
  split at hp
  · cases hp
  rw [if_neg (by rw [hd]; exact Bool.false_ne_true)]
  rw [← hp]
  rw [symbols] at h
  cases hdata : data? (script text) with
  | none => rfl
  | some xs =>
    rw [hdata] at h
    have hxs : xs.mapM (assertion ((script text).length + 1) d') =
        xs.mapM (assertion ((script text).length + 1) d) :=
      mapM_congr_mem fun x hx => assertion_congr fun name hname =>
        (h name (Datum.mem_symbolsAll hx hname)).symm
    exact congrArg (fun found => found.bind fun found => some (found.filterMap fun p => p)) hxs

end Smt

end Precond
