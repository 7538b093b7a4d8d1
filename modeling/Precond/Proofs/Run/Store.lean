import Precond.Proofs.Run.Exp
import Precond.Proofs.Term.Value
import Precond.Table

/-! Models as stores. The variables of a table stand for terms, and a model gives each variable the
value of its term (`Model.store`). Where the terms are constants of their own, an assignment to a
variable is an update of its constant (`Model.store_withConst`), and a model is given back by the
values of its variables and of what is off them (`Model.withStore_store`). -/

namespace Precond

open IR

namespace Table

variable {κ α : Type} [DecidableEq κ]

/-- The entries of one table are entries of the other. -/
def Grows (t t' : Table κ α) : Prop := ∀ k a, t.lookup k = some a → t'.lookup k = some a

theorem Grows.refl (t : Table κ α) : Grows t t := fun _ _ h => h

theorem Grows.trans {t₁ t₂ t₃ : Table κ α} (h₁ : Grows t₁ t₂) (h₂ : Grows t₂ t₃) : Grows t₁ t₃ :=
  fun k a h => h₂ k a (h₁ k a h)

theorem Grows.put {t t' : Table κ α} (h : Grows t t') (key : κ) (a : α) :
    Grows (t.put key a) (t'.put key a) := by
  intro k b hk
  by_cases hkey : k = key
  · subst hkey
    rw [lookup_put_self] at hk ⊢
    exact hk
  · rw [lookup_put_of_ne _ _ hkey] at hk ⊢
    exact h k b hk

theorem grows_put {t : Table κ α} {key : κ} (h : t.lookup key = none) (a : α) :
    Grows t (t.put key a) := by
  intro k b hk
  rw [lookup_put_of_ne _ _ fun hkey => by rw [hkey, h] at hk; cases hk]
  exact hk

theorem put_lookup {t : Table κ α} {key : κ} {a : α} (h : t.lookup key = some a) (b : α) :
    (t.put key b).put key a = t := by
  induction t with
  | nil => cases h
  | cons e rest ih =>
    obtain ⟨k, c⟩ := e
    by_cases hk : k = key
    · subst hk
      rw [List.lookup_cons_self] at h
      cases h
      simp [Table.put]
    · rw [List.lookup_cons, beq_false_of_ne (Ne.symm hk)] at h
      simp [Table.put, hk, ih h]

theorem without_put {t : Table κ α} {key : κ} (h : t.lookup key = none) (a : α) :
    (t.put key a).without key = t := by
  induction t with
  | nil => simp [Table.put, without]
  | cons e rest ih =>
    obtain ⟨k, c⟩ := e
    have hk : k ≠ key := by
      rintro rfl
      rw [List.lookup_cons_self] at h
      cases h
    rw [List.lookup_cons, beq_false_of_ne (Ne.symm hk)] at h
    have hrest := ih h
    simp only [without, ne_eq, decide_not] at hrest
    simp [without, Table.put, hk, hrest]

theorem mem_keys_of_lookup {t : Table κ α} {key : κ} {a : α} (h : t.lookup key = some a) :
    key ∈ t.keys := by
  induction t with
  | nil => cases h
  | cons e rest ih =>
    obtain ⟨k, c⟩ := e
    by_cases hk : key = k
    · exact List.mem_cons.mpr (.inl hk)
    · rw [List.lookup_cons, beq_false_of_ne hk] at h
      exact List.mem_cons_of_mem _ (ih h)

/-- Tables with the same names and related entries. -/
theorem lookup_forall₂ {β : Type} {R : α → β → Prop} {t : Table κ α} {t' : Table κ β}
    (h : List.Forall₂ (fun p q => p.1 = q.1 ∧ R p.2 q.2) t t') (key : κ) :
    Option.Rel R (t.lookup key) (t'.lookup key) := by
  induction h with
  | nil => exact .none
  | @cons p q t t' hp _ ih =>
    obtain ⟨x, a⟩ := p
    obtain ⟨y, b⟩ := q
    obtain ⟨rfl : x = y, hab⟩ := hp
    rw [List.lookup_cons, List.lookup_cons]
    split
    · exact .some hab
    · exact ih

end Table

/-- The variables of a table stand for constants, each for one of its own. -/
structure Separate (V : Table Var SomeTerm) : Prop where
  const : V.lookup v = some t → ∃ n s, t = ⟨s, .const n s⟩
  inj : V.lookup u = some t → V.lookup v = some t → u = v

theorem SomeTerm.const_same (n : String) (s : TSort) :
    SomeTerm.same ⟨s, .const n s⟩ ⟨s, .const n s⟩ = true := by
  show (n == n && s == s) = true
  rw [beq_self_eq_true, beq_self_eq_true, Bool.and_self]

theorem Spine.eq_const_of_same {d : List TSort} {r : TSort} (x : Spine d r)
    (h : x.same (.const n s) = true) : d = [] ∧ r = s ∧ HEq x (Spine.const n s) := by
  cases x with
  | const n' =>
    obtain ⟨hn, hs⟩ := Bool.and_eq_true_iff.mp (show (n' == n && r == s) = true from h)
    cases eq_of_beq hn
    cases eq_of_beq hs
    exact ⟨rfl, rfl, .rfl⟩
  | op f => exact absurd h Bool.false_ne_true
  | app f x => exact absurd h Bool.false_ne_true

theorem SomeTerm.same_const {t : SomeTerm} {n : String} {s : TSort}
    (h : t.same ⟨s, .const n s⟩ = true) : t = ⟨s, .const n s⟩ := by
  obtain ⟨s', x⟩ := t
  obtain ⟨-, rfl, hx⟩ := Spine.eq_const_of_same x h
  rw [eq_of_heq hx]

namespace Model

/-- The values of the variables of a table. -/
def store (m : Model) (V : Table Var SomeTerm) : Store :=
  fun v => ((V.lookup v).map fun t => t.value m).getD default

/-- The models differ at most in constants that variables stand for. -/
def Off (V : Table Var SomeTerm) (m m' : Model) : Prop :=
  m'.func = m.func ∧
    ∀ n s, (∀ v, V.lookup v ≠ some ⟨s, .const n s⟩) → m'.const n s = m.const n s

/-- The variable that stands for a constant. -/
def owner? (V : Table Var SomeTerm) (n : String) (s : TSort) : Option Var :=
  V.keys.find? fun v => (V.lookup v).any (·.same ⟨s, .const n s⟩)

/-- The model in which the variables of a table have the values of a store. -/
def withStore (m : Model) (V : Table Var SomeTerm) (σ : Store) : Model where
  const n s :=
    match owner? V n s with
    | some v => if h : (σ v).1 = s then h ▸ (σ v).2 else m.const n s
    | none => m.const n s
  func := m.func

variable {V : Table Var SomeTerm} {m m' : Model} {v : Var} {t : SomeTerm} {n : String} {s : TSort}

theorem store_of_lookup (h : V.lookup v = some t) (m : Model) : m.store V v = t.value m := by
  rw [store, h]; rfl

theorem store_put (m : Model) (V : Table Var SomeTerm) (v : Var) (t : SomeTerm) :
    m.store (V.put v t) = Function.update (m.store V) v (t.value m) := by
  funext u
  by_cases h : u = v
  · subst h
    rw [Function.update_self, store_of_lookup (Table.lookup_put_self ..)]
  · rw [Function.update_of_ne h, store, store, Table.lookup_put_of_ne _ _ h]

theorem Off.refl (V : Table Var SomeTerm) (m : Model) : m.Off V m := ⟨rfl, fun _ _ _ => rfl⟩

theorem Off.trans {m₁ m₂ m₃ : Model} (h₁ : m₁.Off V m₂) (h₂ : m₂.Off V m₃) : m₁.Off V m₃ :=
  ⟨h₂.1.trans h₁.1, fun n s hn => (h₂.2 n s hn).trans (h₁.2 n s hn)⟩

theorem owner?_eq_some (h : owner? V n s = some v) : V.lookup v = some ⟨s, .const n s⟩ := by
  rw [owner?] at h
  have hv := List.find?_some h
  obtain ⟨t, ht, hs⟩ := (Option.any_eq_true ..).mp hv
  rw [ht, SomeTerm.same_const hs]

theorem owner?_eq_none (h : owner? V n s = none) (v : Var) :
    V.lookup v ≠ some ⟨s, .const n s⟩ := by
  intro hv
  have hn := List.find?_eq_none.mp h v (Table.mem_keys_of_lookup hv)
  rw [hv, Option.any_some, SomeTerm.const_same] at hn
  exact hn rfl

/-- A model is given back by the values of its variables. -/
theorem withStore_store (h : m.Off V m') : m.withStore V (m'.store V) = m' := by
  obtain ⟨const, func⟩ := m'
  cases h.1
  refine congrArg (Model.mk · m.func) (funext fun n => funext fun s => ?_)
  split
  · rename_i v hv
    rw [store_of_lookup (owner?_eq_some hv)]
    exact dif_pos rfl
  · rename_i hv
    exact (h.2 n s (owner?_eq_none hv)).symm

theorem off_withStore (m : Model) (V : Table Var SomeTerm) (σ : Store) :
    m.Off V (m.withStore V σ) := by
  refine ⟨rfl, fun n s hn => ?_⟩
  show (match owner? V n s with
    | some v => if h : (σ v).1 = s then h ▸ (σ v).2 else m.const n s
    | none => m.const n s) = _
  cases ho : owner? V n s with
  | some v => exact absurd (owner?_eq_some ho) (hn v)
  | none => rfl

/-- Variables that stand for other constants keep their values. -/
theorem Off.store_eq {W : Table Var SomeTerm} (h : m.Off V m')
    (hW : ∀ v t, W.lookup v = some t → ∃ n s, t = ⟨s, .const n s⟩)
    (hd : ∀ u v t, V.lookup u = some t → W.lookup v ≠ some t) : m'.store W = m.store W := by
  funext v
  cases hl : W.lookup v with
  | none => rw [store, store, hl]; rfl
  | some t =>
    obtain ⟨n, s, rfl⟩ := hW v t hl
    rw [store_of_lookup hl, store_of_lookup hl]
    exact congrArg (Sigma.mk s) (h.2 n s fun u hu => hd u v _ hu hl)

/-- A variable that stands for a constant of its own gets the value of the store. -/
theorem value_withStore (hV : Separate V) {σ : Store} (h : V.lookup v = some t) (hs : (σ v).1 = t.1)
    (m : Model) : t.value (m.withStore V σ) = σ v := by
  obtain ⟨n, s, rfl⟩ := hV.const h
  replace hs : (σ v).1 = s := hs
  have howner : owner? V n s = some v := by
    cases ho : owner? V n s with
    | none => exact absurd h (owner?_eq_none ho v)
    | some u => rw [hV.inj (owner?_eq_some ho) h]
  have hconst : (m.withStore V σ).const n s = hs ▸ (σ v).2 := by
    show (match owner? V n s with
      | some v => if h : (σ v).1 = s then h ▸ (σ v).2 else m.const n s
      | none => m.const n s) = _
    rw [howner]
    exact dif_pos hs
  refine (congrArg (Sigma.mk s) hconst).trans ?_
  generalize σ v = x at hs
  obtain ⟨s', x⟩ := x
  cases (hs : s' = s)
  rfl

/-- Some model gives the variables of several tables the values of stores, where no constant belongs to
two of them. -/
theorem exists_stores {Vs : List (Table Var SomeTerm × Store)} (hV : ∀ p ∈ Vs, Separate p.1)
    (hs : ∀ p ∈ Vs, ∀ v t, p.1.lookup v = some t → (p.2 v).1 = t.1)
    (hd : Vs.Pairwise fun p q => ∀ u v t, p.1.lookup u = some t → q.1.lookup v ≠ some t) (m : Model) :
    ∃ m' : Model, ∀ p ∈ Vs, ∀ v t, p.1.lookup v = some t → t.value m' = p.2 v := by
  induction Vs with
  | nil => exact ⟨m, nofun⟩
  | cons p Vs ih =>
    obtain ⟨hp, hVs⟩ := List.forall_mem_cons.mp hV
    obtain ⟨hsp, hss⟩ := List.forall_mem_cons.mp hs
    obtain ⟨hdp, hds⟩ := List.pairwise_cons.mp hd
    obtain ⟨m', hm'⟩ := ih hVs hss hds
    refine ⟨m'.withStore p.1 p.2, List.forall_mem_cons.mpr
      ⟨fun v t h => value_withStore hp h (hsp v t h) m', fun q hq v t h => ?_⟩⟩
    have hstore := (m'.off_withStore p.1 p.2).store_eq (fun _ _ => (hVs q hq).const) (hdp q hq)
    rw [← store_of_lookup h, hstore, store_of_lookup h]
    exact hm' q hq v t h

/-! ### Assignments -/

/-- The constant of a variable gets the value of a term. -/
def withConst (m : Model) (n : String) {s : TSort} (x : Term s) : Model :=
  m.update [⟨.const n s, x⟩]

theorem withConst_self (m : Model) (n : String) (x : Term s) :
    (m.withConst n x).const n s = x.eval m := by
  have hf : Swap.find? [⟨.const n s, x⟩] (.const n s) = some x := by
    refine (if_pos (SomeTerm.const_same n s)).trans (dif_pos rfl)
  show Option.elim (Swap.find? [⟨.const n s, x⟩] (.const n s)) _ _ = _
  rw [hf]
  rfl

theorem withConst_of_ne (m : Model) {x : Term s} {n' : String} {s' : TSort}
    (h : (⟨s', .const n' s'⟩ : SomeTerm) ≠ ⟨s, .const n s⟩) :
    (m.withConst n x).const n' s' = m.const n' s' := by
  have hf : Swap.find? [⟨.const n s, x⟩] (.const n' s') = none :=
    Swap.find?_eq_none fun w hw => by
      cases List.mem_singleton.mp hw
      refine Bool.eq_false_iff.mpr fun hs => h ?_
      exact (SomeTerm.same_const (t := ⟨s, .const n s⟩) hs).symm
  show Option.elim (Swap.find? [⟨.const n s, x⟩] (.const n' s')) _ _ = _
  rw [hf]
  rfl

theorem off_withConst (h : V.lookup v = some ⟨s, .const n s⟩) (m : Model) (x : Term s) :
    m.Off V (m.withConst n x) := by
  refine ⟨rfl, fun n' s' hn => withConst_of_ne m fun he => hn v ?_⟩
  rw [he, h]

/-- Changing the constant of a variable changes the value of this variable only. -/
theorem store_withConst (hV : Separate V) (h : V.lookup v = some ⟨s, .const n s⟩) (m : Model)
    (x : Term s) : (m.withConst n x).store V = Function.update (m.store V) v ⟨s, x.eval m⟩ := by
  funext u
  by_cases hu : u = v
  · subst hu
    rw [Function.update_self, store_of_lookup h]
    exact congrArg (Sigma.mk s) (withConst_self m n x)
  · rw [Function.update_of_ne hu]
    cases hl : V.lookup u with
    | none => rw [store, store, hl]; rfl
    | some t =>
      obtain ⟨n', s', rfl⟩ := hV.const hl
      rw [store_of_lookup hl, store_of_lookup hl]
      refine congrArg (Sigma.mk s') (withConst_of_ne m fun he => hu ?_)
      exact hV.inj (he ▸ hl) h

end Model

end Precond
