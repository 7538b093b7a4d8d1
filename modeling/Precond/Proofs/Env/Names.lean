import Std.Data.String.ToNat
import Precond.Proofs.Run.Store
import Precond.Proofs.Walk.Monad

/-! The constants that variables stand for. Numbered names are different where their numbers are
(`NameSupply.numbered_inj`), and a variable that is not numbered has a constant of its own name and
sort, so that asking for variables keeps each constant to one variable (`Env.Named.mkVar`). -/

namespace Precond

open IR

/-! ### Numbered names -/

theorem not_mem_repr (k : Nat) : '_' ∉ (Nat.repr k).toList := by
  intro h
  rw [Nat.toList_repr] at h
  exact absurd (Nat.isDigit_of_mem_toDigits (by decide) (by decide) h) (by decide)

theorem append_sep_inj {α : Type} [DecidableEq α] {sep : α} {xs ys ds es : List α}
    (hd : sep ∉ ds) (he : sep ∉ es) (h : xs ++ sep :: ds = ys ++ sep :: es) : ds = es := by
  have hrev := congrArg (fun l => l.reverse.takeWhile (· ≠ sep)) h
  have htake : ∀ zs ls : List α, sep ∉ ls →
      (zs ++ sep :: ls).reverse.takeWhile (· ≠ sep) = ls.reverse := by
    intro zs ls hl
    rw [List.reverse_append, List.reverse_cons, List.append_assoc, List.takeWhile_append_of_pos]
    · simp
    · intro x hx
      exact decide_eq_true fun (hxs : x = sep) => hl (hxs ▸ List.mem_reverse.mp hx)
  rw [htake xs ds hd, htake ys es he] at hrev
  exact List.reverse_inj.mp hrev

namespace NameSupply

/-- The name that a supply gives with a number. -/
def numbered (s : NameSupply) (k : Nat) (name : String) : String :=
  ({ s with next := k }.fresh name).1

theorem numbered_eq (s : NameSupply) (k : Nat) (name : String) :
    ∃ front, s.numbered k name = front ++ "_" ++ Nat.repr k := by
  unfold numbered fresh
  dsimp only
  split
  · exact ⟨name, rfl⟩
  · exact ⟨name, rfl⟩
  · rename_i space _ _
    exact ⟨space ++ "." ++ name, by simp only [String.append_assoc]; rfl⟩

theorem numbered_inj {s : NameSupply} {j k : Nat} {x y : String}
    (h : s.numbered j x = s.numbered k y) : j = k := by
  obtain ⟨u, hu⟩ := numbered_eq s j x
  obtain ⟨v, hv⟩ := numbered_eq s k y
  have hl := congrArg String.toList (hu.symm.trans (h.trans hv))
  rw [String.toList_append, String.toList_append, String.toList_append, String.toList_append,
    List.append_assoc, List.append_assoc] at hl
  have hds := append_sep_inj (not_mem_repr j) (not_mem_repr k) hl
  exact Nat.repr_injective (String.toList_inj.mp hds)

theorem numbered_congr {s s' : NameSupply} (h : s'.space = s.space) (k : Nat) (name : String) :
    s'.numbered k name = s.numbered k name := by
  simp only [numbered, fresh, h]

end NameSupply

/-! ### Constants of variables -/

theorem IR.Ty.sort_inj {a b : Ty} {s : TSort} (ha : a.sort = .ok s) (hb : b.sort = .ok s) :
    a = b := by
  unfold Ty.sort at ha hb
  cases a with
  | word w =>
    cases b with
    | word v =>
      dsimp only at ha hb
      split at ha <;> cases ha
      split at hb
      · injection hb with hb
        injection hb with hb
        congr 1
        omega
      · cases hb
    | memory a c =>
      dsimp only at ha hb
      split at ha <;> cases ha
      split at hb <;> cases hb
  | memory a c =>
    cases b with
    | word v =>
      dsimp only at ha hb
      split at ha <;> cases ha
      split at hb <;> cases hb
    | memory a' c' =>
      dsimp only at ha hb
      split at ha <;> cases ha
      split at hb <;> cases hb
      rfl

theorem IR.Ty.sort_ne_bool {type : Ty} {s : TSort} (h : type.sort = .ok s) : s ≠ .bool := by
  rintro rfl
  unfold Ty.sort at h
  split at h <;> split at h <;> cases h

/-- Variables of one name and one sort are the same. -/
theorem IR.Var.eq_of_sort {u v : Var} {s : TSort} (hn : u.name = v.name) (hu : u.type.sort = .ok s)
    (hv : v.type.sort = .ok s) : u = v :=
  congr (congrArg Var.mk hn) (Ty.sort_inj hu hv)

namespace Env

/-- A name that the environment has given to a constant for a name. -/
def Gave (e : Env) (name full : String) : Prop :=
  if e.freshen then ∃ k < e.names.next, full = e.names.numbered k name else full = name

/-- Each variable stands for a constant of its own that the environment has given it. -/
structure Named (e : Env) : Prop where
  const : e.vars.lookup v = some t →
    ∃ n s, t = ⟨s, .const n s⟩ ∧ v.type.sort = .ok s ∧ e.Gave v.name n
  inj : e.vars.lookup u = some t → e.vars.lookup v = some t → u = v

theorem Named.separate {e : Env} (h : e.Named) : Separate e.vars where
  const hv := let ⟨n, s, ht, _⟩ := h.const hv; ⟨n, s, ht⟩
  inj := h.inj

/-- An environment without variables. -/
theorem Named.of_empty {e : Env} (h : e.vars = []) : e.Named where
  const hv := by rw [h] at hv; cases hv
  inj hu _ := by rw [h] at hu; cases hu

theorem Gave.mono {e e' : Env} (hf : e'.freshen = e.freshen) (hs : e'.names.space = e.names.space)
    (hn : e.names.next ≤ e'.names.next) {name full : String} (h : e.Gave name full) :
    e'.Gave name full := by
  unfold Gave at h ⊢
  rw [hf]
  split
  · rename_i he
    rw [if_pos he] at h
    obtain ⟨k, hk, hfull⟩ := h
    exact ⟨k, Nat.lt_of_lt_of_le hk hn, hfull.trans (NameSupply.numbered_congr hs k name).symm⟩
  · rename_i he
    rwa [if_neg he] at h

/-- Drawing names keeps the constants of variables. -/
theorem Named.mono {e e' : Env} (h : e.Named) (hv : e'.vars = e.vars) (hf : e'.freshen = e.freshen)
    (hs : e'.names.space = e.names.space) (hn : e.names.next ≤ e'.names.next) : e'.Named where
  const ht := by
    rw [hv] at ht
    obtain ⟨n, s, rfl, hsort, hg⟩ := h.const ht
    exact ⟨n, s, rfl, hsort, hg.mono hf hs hn⟩
  inj hu ht := by
    rw [hv] at hu ht
    exact h.inj hu ht

/-- A constant gets a name that has been given for its own name only. -/
theorem constName_gave {e e' : Env} {name full : String} (h : constName name e = .ok full e') :
    (e'.vars = e.vars ∧ e'.freshen = e.freshen ∧ e'.names.space = e.names.space ∧
      e.names.next ≤ e'.names.next) ∧
    e'.Gave name full ∧ ∀ other, e.Gave other full → other = name := by
  obtain ⟨hf, rfl, rfl⟩ | ⟨hf, rfl, rfl⟩ := constName_ok h
  · refine ⟨⟨rfl, rfl, rfl, Nat.le_succ _⟩, ?_, fun other ho => ?_⟩
    · exact (if_pos hf).mpr ⟨e.names.next, Nat.lt_succ_self _, rfl⟩
    · rw [Gave, if_pos hf] at ho
      obtain ⟨k, hk, hn⟩ := ho
      exact absurd (NameSupply.numbered_inj (j := e.names.next) hn) (by omega)
  · refine ⟨⟨rfl, rfl, rfl, Nat.le_refl _⟩, ?_, fun other ho => ?_⟩
    · rw [Gave, hf]
      exact rfl
    · rw [Gave, hf] at ho
      exact Eq.symm ho

/-- Asking for a variable gives no constant to two variables. -/
theorem Named.mkVar {e e' : Env} {v : Var} {t : SomeTerm} (h : e.Named)
    (hv : Env.mkVar v e = .ok t e') : e'.Named := by
  obtain ⟨-, rfl⟩ | ⟨n, s, e₁, hnone, hname, hsort, rfl, rfl⟩ := mkVar_ok hv
  · exact h
  obtain ⟨⟨hvars, hf, hs, hn⟩, hg, hother⟩ := constName_gave hname
  have h₁ : e₁.Named := h.mono hvars hf hs hn
  have hnew : ∀ u, e₁.vars.lookup u ≠ some ⟨s, .const n s⟩ := by
    intro u hu
    rw [hvars] at hu
    obtain ⟨n', s', ht, hsort', hg'⟩ := h.const hu
    cases ht
    obtain rfl : u = v := by
      obtain ⟨name, type⟩ := u
      cases hother _ hg'
      exact congrArg (Var.mk v.name) (Ty.sort_inj hsort' hsort)
    rw [hnone] at hu
    cases hu
  refine ⟨fun {u t} hu => ?_, fun {u t u'} hu hu' => ?_⟩
  · by_cases huv : u = v
    · subst huv
      rw [Table.lookup_put_self] at hu
      cases hu
      exact ⟨n, s, rfl, hsort, hg⟩
    · rw [Table.lookup_put_of_ne _ _ huv] at hu
      exact h₁.const hu
  · by_cases huv : u = v <;> by_cases huv' : u' = v
    · rw [huv, huv']
    · rw [huv, Table.lookup_put_self] at hu
      rw [Table.lookup_put_of_ne _ _ huv'] at hu'
      cases hu
      exact absurd hu' (hnew u')
    · rw [huv', Table.lookup_put_self] at hu'
      rw [Table.lookup_put_of_ne _ _ huv] at hu
      cases hu'
      exact absurd hu (hnew u)
    · rw [Table.lookup_put_of_ne _ _ huv] at hu
      rw [Table.lookup_put_of_ne _ _ huv'] at hu'
      exact h₁.inj hu hu'

end Env

end Precond
