import Precond.Proofs.Compare.Effects
import Precond.Proofs.Compare.Texts
import Precond.Proofs.Exact.Summaries

/-! What contracts mean. The precondition of a call under a contract is true for all values of the constants
that have been drawn for it if and only if the first text is true at the call and, in every state behind the
call in which the second text is true, the postcondition is true (`Walk.contract_means`). -/

namespace Precond

open IR

/-! ### Texts -/

namespace Smt

/-- What a text says where its names have values. -/
def Says (σ : String → Option Value) (text : String) : Prop :=
  ∃ (d : Decls) (m : Model) (ps : List (Term .bool)),
    (∀ name, (d.lookup name).map (·.value m) = σ name) ∧ assertions d text = some ps ∧
      ∀ p ∈ ps, p.holds m = true

/-- Any table that gives the names their values tells what a text says. -/
theorem says_iff {σ : String → Option Value} {d : Decls} {m : Model} {text : String}
    {ps : List (Term .bool)} (hd : ∀ name, (d.lookup name).map (·.value m) = σ name)
    (hps : assertions d text = some ps) : Says σ text ↔ ∀ p ∈ ps, p.holds m = true := by
  constructor
  · rintro ⟨d', m', ps', hd', hps', hholds⟩
    have halike : d.Alike m m' d' := by
      refine fun name => .inl ?_
      have hvalue := (hd name).trans (hd' name).symm
      cases hl : d.lookup name with
      | none =>
        rw [hl, Option.map_none, eq_comm, Option.map_eq_none_iff] at hvalue
        rw [hvalue]
        exact .none
      | some t =>
        rw [hl, Option.map_some, eq_comm, Option.map_eq_some_iff] at hvalue
        obtain ⟨u, hu, hut⟩ := hvalue
        rw [hu]
        exact .some (SomeTerm.alike_iff.mpr hut.symm)
    intro p hp
    obtain ⟨q, hq, hpq⟩ := Mirror.forall₂_left (assertions_alike halike hps hps') p hp
    exact hpq.trans (hholds q hq)
  · exact fun hholds => ⟨d, m, ps, hd, hps, hholds⟩

/-- The goal of a text about declared names. -/
structure Tells (d : Decls) (text : String) (n : Nat) (c : Constr) : Prop where
  id : c.id = n
  leaf : c.children = []
  formal : c.Formal
  truth : (∀ name, (d.lookup name).map (·.value m) = σ name) → (c.truth m = true ↔ Says σ text)

end Smt

/-- A table into which entries have been put under different keys. -/
theorem Table.lookup_puts {κ α β : Type} [DecidableEq κ] {xs : List β} {key : β → κ}
    (hk : (xs.map key).Nodup) (val : β → α) (t : Table κ α) (k : κ) :
    (xs.foldl (fun t x => Table.put t (key x) (val x)) t).lookup k =
      ((xs.find? fun x => key x == k).map val).or (t.lookup k) := by
  induction xs generalizing t with
  | nil => rfl
  | cons x xs ih =>
    obtain ⟨hx, hxs⟩ := List.nodup_cons.mp hk
    rw [List.foldl_cons, ih hxs, List.find?_cons]
    by_cases hkx : key x = k
    · subst hkx
      have hnone : xs.find? (fun y => key y == key x) = none :=
        List.find?_eq_none.mpr fun y hy hyx => hx (eq_of_beq hyx ▸ List.mem_map_of_mem hy)
      rw [hnone, Table.lookup_put_self, beq_self_eq_true]
      rfl
    · rw [Table.lookup_put_of_ne _ _ (Ne.symm hkx), beq_false_of_ne hkx]

/-- The sort of a term, as types tell it. -/
def SomeTerm.sort (t : SomeTerm) : Except Fault TSort := .ok t.1

/-- A text that is no formula where its names have sorts. -/
def Smt.Illegible (sorts : String → Option (Except Fault TSort)) (text : String) : Prop :=
  ∃ d : Decls, (∀ name, (d.lookup name).map (·.sort) = sorts name) ∧ assertions d text = none

namespace IR.Arch

variable {a : Arch} {σ σ' σ₁ σ₁' : Var → β}

/-- What the registers have that a text may name. -/
def values (a : Arch) (σ : Var → β) (name : String) : Option β := (a.reg? name).map σ

/-- What the registers have, and in front of it what they have had before. -/
def valuesSince (a : Arch) (σ σ' : Var → β) (name : String) : Option β :=
  ((a.registers.find? fun r => initFront ++ r.name == name).map σ).or (a.values σ' name)

theorem values_congr (h : ∀ r ∈ a.registers, σ r = σ' r) : a.values σ = a.values σ' :=
  funext fun _ => Option.map_congr fun r hr => h r (List.mem_of_find?_eq_some hr)

theorem valuesSince_congr (h : ∀ r ∈ a.registers, σ r = σ₁ r) (h' : ∀ r ∈ a.registers, σ' r = σ₁' r) :
    a.valuesSince σ σ' = a.valuesSince σ₁ σ₁' := by
  funext name
  unfold valuesSince
  rw [values_congr h', Option.map_congr fun r hr => h r (List.mem_of_find?_eq_some hr)]

/-- Registers have names of their own, without numbers. -/
theorem legible : ∀ a ∈ Arch.all, (a.registers.map (·.name)).Nodup ∧
    (∀ r ∈ a.registers, '_' ∉ r.name.toList) ∧ a.callerSaved ≠ [] := by decide

variable {g : SomeTerm → β}

/-- The registers with their terms, or with new ones, as declared names. -/
def declared (a : Arch) (T : Var → SomeTerm) (new : Table Var SomeTerm) : Smt.Decls :=
  (a.registers.map fun r => (r, T r)).foldl (fun t (r, x) => Table.put t r.name ((new.lookup r).getD x)) []

/-- The registers as declared names, and in front of them those before a call. -/
def declaredSince (a : Arch) (T : Var → SomeTerm) (new : Table Var SomeTerm) : Smt.Decls :=
  (a.registers.map fun r => (r, T r)).foldl (fun t (r, x) => Table.put t (initFront ++ r.name) x)
    (a.declared T new)

theorem lookup_declared (ha : a ∈ Arch.all) {T : Var → SomeTerm} {new : Table Var SomeTerm}
    (hσ : ∀ r ∈ a.registers, g ((new.lookup r).getD (T r)) = σ r) (name : String) :
    ((a.declared T new).lookup name).map g = a.values σ name := by
  obtain ⟨hnames, -⟩ := legible _ ha
  unfold declared
  rw [List.foldl_map, Table.lookup_puts hnames fun r => (new.lookup r).getD (T r)]
  rw [show List.lookup name ([] : Smt.Decls) = none from rfl, Option.or_none, Option.map_map]
  exact Option.map_congr fun r hr => hσ r (List.mem_of_find?_eq_some hr)

theorem lookup_declaredSince (ha : a ∈ Arch.all) {T : Var → SomeTerm} {new : Table Var SomeTerm}
    (hσ : ∀ r ∈ a.registers, g (T r) = σ r)
    (hσ' : ∀ r ∈ a.registers, g ((new.lookup r).getD (T r)) = σ' r) (name : String) :
    ((a.declaredSince T new).lookup name).map g = a.valuesSince σ σ' name := by
  obtain ⟨hnames, -⟩ := legible _ ha
  have hfront : (a.registers.map fun r => initFront ++ r.name).Nodup := by
    have hmap := List.Nodup.map (f := (initFront ++ ·)) (fun _ _ => (String.append_right_inj _).mp) hnames
    rwa [List.map_map] at hmap
  unfold declaredSince valuesSince
  rw [List.foldl_map, Table.lookup_puts hfront T, Option.map_or, lookup_declared ha hσ', Option.map_map]
  rw [Option.map_congr fun r hr => (show (g ∘ T) r = σ r from hσ r (List.mem_of_find?_eq_some hr))]

end IR.Arch

/-! ### Constants that are drawn -/

namespace Env

variable {e e₁ : Env} {name : String} {vs : List Var} {new : Table Var SomeTerm}

/-- Constants for new values of variables, drawn for a contract. -/
structure Generates (e : Env) (name : String) (vs : List Var) (new : Table Var SomeTerm) : Prop where
  keys : new.map (·.1) = vs
  drawn : new.lookup v = some t → ∃ k s, e.names.next ≤ k ∧ v.type.sort = .ok s ∧
    t = ⟨s, .const (e.names.numbered k (name ++ "_" ++ v.name)) s⟩

namespace Generates

theorem of_later (h : e₁.Generates name vs new) (hs : e₁.names.space = e.names.space)
    (hn : e.names.next ≤ e₁.names.next) : e.Generates name vs new where
  keys := h.keys
  drawn hl := by
    obtain ⟨k, s, hk, hsort, ht⟩ := h.drawn hl
    rw [NameSupply.numbered_congr hs] at ht
    exact ⟨k, s, hn.trans hk, hsort, ht⟩

/-- No constant is drawn twice. -/
theorem separate (h : e.Generates name vs new) : Separate new where
  const hl :=
    let ⟨_, s, _, _, ht⟩ := h.drawn hl
    ⟨_, s, ht⟩
  inj hu hv := by
    obtain ⟨k, s, -, hs, rfl⟩ := h.drawn hu
    obtain ⟨k', s', -, hs', ht⟩ := h.drawn hv
    cases (Sigma.mk.inj ht).1
    have hname := NameSupply.numbered_name_inj (Spine.const.inj (eq_of_heq (Sigma.mk.inj ht).2))
    exact Var.eq_of_sort ((String.append_right_inj _).mp hname) hs hs'

/-- What is drawn are not constants of variables whose names have no numbers. -/
theorem apart (h : e.Generates name vs new) (ht : e.Tidy) {r v : Var} {t : SomeTerm}
    (hr : '_' ∉ r.name.toList) (hl : e.vars.lookup r = some t) : new.lookup v ≠ some t := by
  intro hnew
  obtain ⟨k, s, hk, -, rfl⟩ := h.drawn hnew
  obtain ⟨n, s', hconst, -, hgave⟩ := ht.vars hl
  cases hconst
  unfold Gave at hgave
  split at hgave
  · obtain ⟨j, hj, hn⟩ := hgave
    exact absurd (NameSupply.numbered_inj hn) (by omega)
  · obtain ⟨front, hfront⟩ := e.names.numbered_eq k (name ++ "_" ++ v.name)
    rw [← hgave, hfront, String.toList_append, String.toList_append] at hr
    exact hr (by simp)

end Generates

end Env

/-- The constraint of a contract: its first text, and the postcondition under two substitutions where its
second text is true. -/
theorem Constr.Ledger.contract {K : Constr → Prop} {n : Nat} (hK : Ledger K n) {before behind after : Constr}
    (hafter : K after) (hbefore : Smt.Tells d pre n before) (hbehind : Smt.Tells d' post (n + 1) behind)
    {ps qs : List (SomeTerm × SomeTerm)} (hps : Coherent ps) (hqs : Coherent qs) :
    ∃ t, (clause (n + 5) [] [before, clause (n + 4) [behind]
        [subst (n + 3) (subst (n + 2) after ps) qs]]).toFormula = .ok t ∧
      ∀ m, t.holds m = true ↔ before.truth m = true ∧ (behind.truth m = true →
        after.truth ((m.update (swaps qs)).update (swaps ps)) = true) := by
  obtain ⟨hf₁, ht₁⟩ := hps.subst (hK.formal hafter) (n + 2)
  obtain ⟨hf₂, ht₂⟩ := hqs.subst hf₁ (n + 3)
  have hinner := List.forall_mem_singleton.mpr hf₂
  have hf₃ : (clause (n + 4) [behind] _).Formal := formal_clause (List.forall_mem_singleton.mpr hbehind.formal) hinner
  have hgoals := List.forall_mem_cons.mpr ⟨hbefore.formal, List.forall_mem_singleton.mpr hf₃⟩
  have hf₄ : (clause (n + 5) [] _).Formal := formal_clause (List.forall_mem_nil _) hgoals
  have hL₁ := hK.add hbefore.id hbefore.formal (by rw [hbefore.leaf]; nofun)
  have hL₂ := hL₁.add hbehind.id hbehind.formal (by rw [hbehind.leaf]; nofun)
  have hL₃ := hL₂.add rfl hf₁ (by simp [children, hafter])
  have hL₄ := hL₃.add rfl hf₂ (by simp [children])
  have hL₅ := hL₄.add rfl hf₃ (by simp [children])
  have hL₆ := hL₅.add rfl hf₄ (by simp [children])
  obtain ⟨t, ht, hholds⟩ := hL₆.formula (.inr rfl)
  refine ⟨t, ht, fun m => ?_⟩
  rw [hholds, truth_clause (List.forall_mem_nil _) hgoals, List.all_cons, List.all_cons, List.all_nil,
    truth_clause (List.forall_mem_singleton.mpr hbehind.formal) hinner]
  simp [ht₁, ht₂, imp_iff_not_or]

/-! ### States behind a call under a contract -/

/-- What is known of registers and of the constants drawn for new values of them. -/
structure Env.Chaotic (e : Env) (new : Table Var SomeTerm) : Prop where
  tidy : e.Tidy
  arch : e.arch ∈ Arch.all
  keys : new.map (·.1) = e.arch.callerSaved
  separate : Separate new
  sort : new.lookup v = some t → v.type.sort = .ok t.1
  bound : r ∈ e.arch.registers → ∃ t, e.vars.lookup r = some t
  apart : r ∈ e.arch.registers → e.vars.lookup r = some t → new.lookup v ≠ some t

/-- What a contract says of a model, by the state behind the call in which registers that callees may
change have the values of the drawn constants. -/
def Env.Contracts (e : Env) (callee : Sub) (new : Table Var SomeTerm) (pre post : String)
    (F t : Term .bool) : Prop :=
  ∀ m, ∃ m₂, e.Returned callee e.arch.callerSaved m m₂ ∧
    (∀ r ∈ e.arch.callerSaved, m₂.store e.vars r = m.store new r) ∧
    (t.holds m = true ↔ Smt.Says (e.arch.values (m.store e.vars)) pre ∧
      (Smt.Says (e.arch.valuesSince (m.store e.vars) fun r =>
        if r ∈ e.arch.callerSaved then m.store new r else m.store e.vars r) post → F.holds m₂ = true))

/-- Constants that have been drawn, and what is bound later. -/
theorem Env.Generates.chaotic {e : Env} {name : String} {new : Table Var SomeTerm}
    (h : e.Generates name e.arch.callerSaved new) (ht : e.Tidy) (harch : e.arch ∈ Arch.all)
    (hbound : ∀ r ∈ e.arch.registers, ∃ t, e.vars.lookup r = some t) : e.Chaotic new where
  tidy := ht
  arch := harch
  keys := h.keys
  separate := h.separate
  sort hl := by
    obtain ⟨_, s, -, hs, rfl⟩ := h.drawn hl
    exact hs
  bound hr := hbound _ hr
  apart hr hl := h.apart ht ((Arch.legible _ harch).2.1 _ hr) hl

/-- The first text is true at a call, and the postcondition is true in all states behind it in which the
second text is true. In the second text the stack pointer is the one at the call, also where a return
moves it. -/
def Env.Guarantees (e : Env) (callee : Sub) (pre post : String) (F : Term .bool) (m : Model) : Prop :=
  Smt.Says (e.arch.values (m.store e.vars)) pre ∧
    ∀ m', e.Returned callee e.arch.callerSaved m m' →
      Smt.Says (e.arch.valuesSince (m.store e.vars)
        (Function.update (m'.store e.vars) e.arch.sp (m.store e.vars e.arch.sp))) post → F.holds m' = true

namespace Env.Chaotic

variable {e : Env} {callee : Sub} {new : Table Var SomeTerm} {m m' m₁ m₂ : Model} {r : Var}

theorem later {e' : Env} (h : e.Chaotic new) (hb : e.Before e') (ht : e'.Tidy) : e'.Chaotic new := by
  have hp := congrArg Env.arch hb.policy
  have ha : e'.arch = e.arch := hp
  refine ⟨ht, ha ▸ h.arch, ha ▸ h.keys, h.separate, h.sort, fun hr => ?_, fun hr hl => ?_⟩
  · obtain ⟨t, hl⟩ := h.bound (ha ▸ hr)
    exact ⟨t, hb.vars _ _ hl⟩
  · obtain ⟨t, hl'⟩ := h.bound (ha ▸ hr)
    cases hl.symm.trans (hb.vars _ _ hl')
    exact h.apart (ha ▸ hr) hl'

theorem mem_saved (h : e.Chaotic new) : r ∈ e.arch.callerSaved ↔ (new.lookup r).isSome :=
  h.keys ▸ Table.mem_keys_iff

theorem saved (h : e.Chaotic new) (hr : r ∈ e.arch.callerSaved) : ∃ t, new.lookup r = some t :=
  Option.isSome_iff_exists.mp (h.mem_saved.mp hr)

theorem register (h : e.Chaotic new) (hr : r ∈ e.arch.callerSaved) : r ∈ e.arch.registers :=
  (Arch.registers_spec _ h.arch).2.2.2.2 hr

/-- A register stands for a constant that is no truth value and that has not been drawn. -/
theorem const (h : e.Chaotic new) (hr : r ∈ e.arch.registers) : ∃ n s,
    e.vars.lookup r = some ⟨s, .const n s⟩ ∧ s ≠ .bool ∧ ∀ v, new.lookup v ≠ some ⟨s, .const n s⟩ := by
  obtain ⟨t, hl⟩ := h.bound hr
  obtain ⟨n, s, rfl, hs, -⟩ := h.tidy.vars hl
  exact ⟨n, s, hl, Ty.sort_ne_bool hs, fun v => h.apart hr hl⟩

/-- Registers have their values whatever the drawn constants are. -/
theorem store_off (h : e.Chaotic new) (hoff : m.Off new m₁) (hr : r ∈ e.arch.registers) :
    m₁.store e.vars r = m.store e.vars r := by
  obtain ⟨n, s, hl, -, hnew⟩ := h.const hr
  rw [Model.store_of_lookup hl, Model.store_of_lookup hl]
  exact congrArg (Sigma.mk s) (hoff.2 n s hnew)

/-- Registers that callees do not change. -/
theorem store_kept (h : e.Chaotic new) (hret : e.Returned callee e.arch.callerSaved m m')
    (hr : r ∈ e.arch.registers) (hsaved : r ∉ e.arch.callerSaved) (hsp : r ≠ e.arch.sp) :
    m'.store e.vars r = m.store e.vars r := by
  obtain ⟨n, s, hl, hs, -⟩ := h.const hr
  rw [Model.store_of_lookup hl, Model.store_of_lookup hl]
  refine congrArg (Sigma.mk s) (hret.other (fun v hv hlv => ?_) fun p _ hp => hs (congrArg Sigma.fst hp).symm)
  cases h.tidy.named.inj hlv hl
  rcases hv with hv | ⟨-, hv⟩
  · exact hsaved hv
  · exact hsp hv

/-- Where a return pops nothing the second text of a contract is about the state behind the call. -/
theorem update_sp (h : e.Chaotic new) (hpops : e.arch.popsReturnAddr = false)
    (hret : e.Returned callee e.arch.callerSaved m m') :
    Function.update (m'.store e.vars) e.arch.sp (m.store e.vars e.arch.sp) = m'.store e.vars := by
  obtain ⟨n, s, hl, hs, -⟩ := h.const (Arch.registers_spec _ h.arch).1
  refine Function.update_eq_self_iff.mpr ?_
  rw [Model.store_of_lookup hl, Model.store_of_lookup hl]
  refine congrArg (Sigma.mk s) (hret.other (fun v hv hlv => ?_) fun p _ hp => hs (congrArg Sigma.fst hp).symm).symm
  rcases hv with hv | ⟨hpopped, -⟩
  · cases h.tidy.named.inj hlv hl
    exact (Arch.outputs_nodup _ h.arch).2 hv
  · exact absurd (hpops.symm.trans hpopped) Bool.false_ne_true

/-- The values that the second text of a contract names. -/
theorem values_since (h : e.Chaotic new) (hoff : m.Off new m₁)
    (hret : e.Returned callee e.arch.callerSaved m m')
    (hnew : ∀ r ∈ e.arch.callerSaved, m'.store e.vars r = m₁.store new r) (hr : r ∈ e.arch.registers) :
    (if r ∈ e.arch.callerSaved then m₁.store new r else m₁.store e.vars r) =
      Function.update (m'.store e.vars) e.arch.sp (m.store e.vars e.arch.sp) r := by
  have hsp := (Arch.outputs_nodup _ h.arch).2
  by_cases hrsp : r = e.arch.sp
  · subst hrsp
    rw [if_neg hsp, Function.update_self, h.store_off hoff hr]
  · rw [Function.update_of_ne hrsp]
    split
    · rename_i hsaved
      exact (hnew r hsaved).symm
    · rename_i hsaved
      rw [h.store_off hoff hr, h.store_kept hret hr hsaved hrsp]

/-- Two states behind a call in which registers that callees may change have the same values differ in
drawn constants at most. -/
theorem agree (h : e.Chaotic new) (hoff : m.Off new m₁)
    (hret : e.Returned callee e.arch.callerSaved m m')
    (hret₁ : e.Returned callee e.arch.callerSaved m₁ m₂)
    (hsame : ∀ r ∈ e.arch.callerSaved, m'.store e.vars r = m₂.store e.vars r) {n : String} {s : TSort}
    (hn : ∀ v, new.lookup v ≠ some ⟨s, .const n s⟩) : m'.const n s = m₂.const n s := by
  have hstore {v : Var} (hl : e.vars.lookup v = some ⟨s, .const n s⟩)
      (hv : m'.store e.vars v = m₂.store e.vars v) : m'.const n s = m₂.const n s := by
    rw [Model.store_of_lookup hl, Model.store_of_lookup hl] at hv
    exact eq_of_heq (Sigma.mk.inj hv).2
  by_cases hvar : ∃ v, (v ∈ e.arch.callerSaved ∨ e.arch.popsReturnAddr = true ∧ v = e.arch.sp) ∧
      e.vars.lookup v = some ⟨s, .const n s⟩
  · obtain ⟨v, hv | ⟨hpops, rfl⟩, hl⟩ := hvar
    · exact hstore hl (hsame v hv)
    · have hsp := (Arch.outputs_nodup _ h.arch).2
      obtain ⟨w, x, hx, hx'⟩ := hret.popped hpops hsp
      obtain ⟨w₁, x₁, hx₁, hx₁'⟩ := hret₁.popped hpops hsp
      rw [h.store_off hoff (Arch.registers_spec _ h.arch).1, hx] at hx₁
      obtain ⟨hw, hxx⟩ := Sigma.mk.inj hx₁
      cases hw
      obtain rfl := eq_of_heq hxx
      exact hstore hl (hx'.trans hx₁'.symm)
  · by_cases hflag : ∃ p, e.called.lookup (e.canonical callee.name) = some p ∧
        (⟨.bool, p⟩ : SomeTerm) = ⟨s, .const n s⟩
    · obtain ⟨p, hl, hp⟩ := hflag
      obtain ⟨q, hq, hholds⟩ := hret.called
      obtain ⟨q₁, hq₁, hholds₁⟩ := hret₁.called
      cases hl.symm.trans hq
      cases hl.symm.trans hq₁
      cases hp
      exact hholds.trans hholds₁.symm
    · have hvars (v : Var) (hv : v ∈ e.arch.callerSaved ∨ e.arch.popsReturnAddr = true ∧ v = e.arch.sp) :
          e.vars.lookup v ≠ some ⟨s, .const n s⟩ := fun hl => hvar ⟨v, hv, hl⟩
      have hflags (p : Term .bool) (hl : e.called.lookup (e.canonical callee.name) = some p) :
          (⟨.bool, p⟩ : SomeTerm) ≠ ⟨s, .const n s⟩ := fun hp => hflag ⟨p, hl, hp⟩
      rw [hret.other hvars hflags, hret₁.other hvars hflags, hoff.2 n s hn]

/-- The state behind a call in which drawn constants are as before. -/
theorem restored (h : e.Chaotic new) (hoff : m.Off new m₁)
    (hret : e.Returned callee e.arch.callerSaved m₁ m₂) :
    e.Returned callee e.arch.callerSaved m (m₂.withStore new (m.store new)) := by
  have hoff₂ := m₂.off_withStore new (m.store new)
  obtain ⟨p, hp, hholds⟩ := hret.called
  refine ⟨hret.func.trans hoff.1, ⟨p, hp, ?_⟩, fun hpops hsp => ?_, fun {n s} hvars hflags => ?_⟩
  · obtain ⟨n, rfl, -⟩ := h.tidy.called hp
    refine (hoff₂.2 n .bool fun v hl => ?_).trans hholds
    exact Ty.sort_ne_bool (h.sort hl) rfl
  · obtain ⟨w, x, hx, hx'⟩ := hret.popped hpops hsp
    have hreg := (Arch.registers_spec _ h.arch).1
    refine ⟨w, x, ?_, ?_⟩
    · rw [← h.store_off hoff hreg, hx]
    · rw [h.store_off hoff₂ hreg, hx']
  · by_cases hn : ∃ v, new.lookup v = some ⟨s, .const n s⟩
    · obtain ⟨v, hl⟩ := hn
      have hv := Model.store_of_lookup hl m
      have hvalue := Model.value_withStore h.separate hl (congrArg Sigma.fst hv) m₂
      exact eq_of_heq (Sigma.mk.inj (hvalue.trans hv)).2
    · have hnew := not_exists.mp hn
      rw [hoff₂.2 n s hnew, hret.other hvars hflags, hoff.2 n s hnew]

/-- What a contract says is said for all values of the drawn constants if and only if its first text is
true, and the postcondition is true in all states behind the call in which its second text is true. -/
theorem means (h : e.Chaotic new) {pre post : String} {F t : Term .bool}
    (hF : ∀ v n s, new.lookup v = some ⟨s, .const n s⟩ → (n, s) ∉ F.constants)
    (ht : e.Contracts callee new pre post F t) (m : Model) :
    (∀ m₁, m.Off new m₁ → t.holds m₁ = true) ↔ e.Guarantees callee pre post F m := by
  have hmentions {m' m₂ : Model} (hfunc : m'.func = m₂.func)
      (hsame : ∀ n s, (∀ v, new.lookup v ≠ some ⟨s, .const n s⟩) → m'.const n s = m₂.const n s) :
      F.holds m' = F.holds m₂ :=
    Spine.eval_congr hfunc fun c hc => hsame c.1 c.2 fun v hl => hF v c.1 c.2 hl hc
  have hsince {m₁ m' : Model} (hoff : m.Off new m₁) (hret : e.Returned callee e.arch.callerSaved m m')
      (hnew : ∀ r ∈ e.arch.callerSaved, m'.store e.vars r = m₁.store new r) :=
    Arch.valuesSince_congr (fun r hr => h.store_off hoff hr) fun r hr => h.values_since hoff hret hnew hr
  constructor
  · intro hall
    refine ⟨?_, fun m' hret hpost => ?_⟩
    · obtain ⟨m₂, -, -, hiff⟩ := ht m
      exact (hiff.mp (hall m (.refl new m))).1
    · -- the drawn constants get the values that the registers have behind the call
      have hoff := m.off_withStore new (m'.store e.vars)
      have hnew (r : Var) (hr : r ∈ e.arch.callerSaved) :
          m'.store e.vars r = (m.withStore new (m'.store e.vars)).store new r := by
        obtain ⟨u, hl⟩ := h.saved hr
        obtain ⟨n, s, hreg, -, -⟩ := h.const (h.register hr)
        rw [Model.store_of_lookup hl, Model.value_withStore h.separate hl]
        rw [Model.store_of_lookup hreg]
        obtain ⟨n', s', hconst, hs, -⟩ := h.tidy.vars hreg
        cases hconst
        exact Except.ok.inj (hs.symm.trans (h.sort hl))
      obtain ⟨m₂, hret₂, hstore₂, hiff⟩ := ht (m.withStore new (m'.store e.vars))
      have hholds := (hiff.mp (hall _ hoff)).2 (by rw [hsince hoff hret hnew]; exact hpost)
      rw [← hholds]
      refine hmentions ((hret.func.trans hoff.1.symm).trans hret₂.func.symm) fun n s hn => ?_
      exact h.agree hoff hret hret₂ (fun r hr => (hnew r hr).trans (hstore₂ r hr).symm) hn
  · rintro ⟨hpre, hbehind⟩ m₁ hoff
    obtain ⟨m₂, hret₂, hstore₂, hiff⟩ := ht m₁
    rw [Arch.values_congr fun r hr => h.store_off hoff hr] at hiff
    refine hiff.mpr ⟨hpre, fun hpost => ?_⟩
    -- the state behind the call, with the drawn constants as they are at the call
    have hret := h.restored hoff hret₂
    have hoff₂ := m₂.off_withStore new (m.store new)
    have hnew (r : Var) (hr : r ∈ e.arch.callerSaved) :
        (m₂.withStore new (m.store new)).store e.vars r = m₁.store new r := by
      rw [h.store_off hoff₂ (h.register hr), hstore₂ r hr]
    rw [hsince hoff hret hnew] at hpost
    rw [← hbehind _ hret hpost]
    exact hmentions hoff₂.1.symm fun n s hn => (hoff₂.2 n s hn).symm

/-! ### Replacements -/

theorem lookup_of_mem (h : e.Chaotic new) {p : Var × SomeTerm} (hp : p ∈ new) :
    p.1 ∈ e.arch.callerSaved ∧ new.lookup p.1 = some p.2 := by
  have hnodup := (Arch.outputs_nodup _ h.arch).1
  rw [← h.keys] at hnodup ⊢
  exact ⟨List.mem_map_of_mem hp, Table.Single.lookup hnodup hp⟩

variable {T : Var → SomeTerm} {qs : List (SomeTerm × SomeTerm)}

/-- Registers that callees may change are replaced by the drawn constants. -/
theorem coherent (h : e.Chaotic new) (hT : ∀ r ∈ e.arch.registers, e.vars.lookup r = some (T r)) :
    Coherent (new.map fun p => (T p.1, p.2)) where
  const {q} hq := by
    obtain ⟨⟨r, x⟩, hp, rfl⟩ := List.mem_map.mp hq
    obtain ⟨hr, hl⟩ := h.lookup_of_mem hp
    obtain ⟨n, s, hold, hs, -⟩ := h.tidy.vars (hT r (h.register hr))
    obtain ⟨s', x⟩ := x
    obtain rfl : s = s' := Except.ok.inj (hs.symm.trans (h.sort hl))
    exact ⟨n, s, x, by rw [hold]⟩
  unique {q q'} hq hq' hqq := by
    obtain ⟨⟨r, x⟩, hp, rfl⟩ := List.mem_map.mp hq
    obtain ⟨⟨r', x'⟩, hp', rfl⟩ := List.mem_map.mp hq'
    obtain ⟨hr, hl⟩ := h.lookup_of_mem hp
    obtain ⟨hr', hl'⟩ := h.lookup_of_mem hp'
    have ht := hT r (h.register hr)
    rw [show T r = T r' from hqq] at ht
    obtain rfl : r = r' := h.tidy.named.inj ht (hT r' (h.register hr'))
    cases hl.symm.trans hl'
    rfl

/-- A return, and then new values of registers, make a state behind the call. -/
theorem behind (h : e.Chaotic new) (hT : ∀ r ∈ e.arch.registers, e.vars.lookup r = some (T r))
    (hret : e.Returned callee [] m m₁) (ha : m₁.Assigned (new.map fun p => (T p.1, p.2)) m₂) :
    e.Returned callee e.arch.callerSaved m m₂ ∧
      ∀ r ∈ e.arch.callerSaved, m₂.store e.vars r = m.store new r := by
  have hsp := (Arch.registers_spec _ h.arch).1
  -- what does not belong to a register that callees may change is as behind the return
  have hother {n : String} {s : TSort}
      (hn : ∀ v ∈ e.arch.callerSaved, e.vars.lookup v ≠ some ⟨s, .const n s⟩) :
      m₂.const n s = m₁.const n s := by
    refine ha.other fun q hq hold => ?_
    obtain ⟨p, hp, rfl⟩ := List.mem_map.mp hq
    obtain ⟨hr, -⟩ := h.lookup_of_mem hp
    exact hn p.1 hr (hold ▸ hT p.1 (h.register hr))
  refine ⟨⟨ha.func.trans hret.func, ?_, fun hpops hnot => ?_, fun {n s} hvars hflags => ?_⟩, fun r hr => ?_⟩
  · obtain ⟨p, hp, hholds⟩ := hret.called
    obtain ⟨n, rfl, -⟩ := h.tidy.called hp
    refine ⟨_, hp, (hother fun v _ hl => ?_).trans hholds⟩
    obtain ⟨n', s, hconst, hs, -⟩ := h.tidy.vars hl
    exact Ty.sort_ne_bool hs (congrArg Sigma.fst hconst).symm
  · obtain ⟨w, x, hx, hx'⟩ := hret.popped hpops List.not_mem_nil
    obtain ⟨n, s, hl, -, -⟩ := h.const hsp
    refine ⟨w, x, hx, ?_⟩
    rw [← hx', Model.store_of_lookup hl, Model.store_of_lookup hl]
    refine congrArg (Sigma.mk s) (hother fun v hv hlv => hnot ?_)
    exact h.tidy.named.inj hlv hl ▸ hv
  · rw [hother fun v hv => hvars v (.inl hv)]
    exact hret.other (fun v hv => hvars v (.inr (hv.resolve_left List.not_mem_nil))) hflags
  · obtain ⟨t, hl⟩ := h.saved hr
    obtain ⟨n, s, hreg, hs, -⟩ := h.const (h.register hr)
    have hmem : (T r, t) ∈ new.map fun p => (T p.1, p.2) :=
      List.mem_map.mpr ⟨(r, t), Table.mem_of_lookup hl, rfl⟩
    obtain ⟨n', s', hold, htype, -⟩ := h.tidy.vars hreg
    cases hold
    obtain ⟨k, hk⟩ := h.separate.const hl
    obtain ⟨s'', rfl⟩ := hk
    obtain rfl : s = s'' := Except.ok.inj (htype.symm.trans (h.sort hl))
    rw [Option.some.inj ((hT r (h.register hr)).symm.trans hreg)] at hmem
    rw [Model.store_of_lookup hreg, Model.store_of_lookup hl]
    refine congrArg (Sigma.mk s) ((ha.new hmem).trans ?_)
    refine hret.other (fun v hv hlv => ?_) fun p _ hp => hs (congrArg Sigma.fst hp).symm
    obtain ⟨-, rfl⟩ := hv.resolve_left List.not_mem_nil
    exact h.apart hsp hlv hl

/-! ### Texts -/

theorem store_eq (hT : ∀ r ∈ e.arch.registers, e.vars.lookup r = some (T r)) (m : Model) :
    ∀ r ∈ e.arch.registers, (T r).value m = m.store e.vars r :=
  fun r hr => (Model.store_of_lookup (hT r hr) m).symm

theorem sort_eq (h : e.Chaotic new) (hT : ∀ r ∈ e.arch.registers, e.vars.lookup r = some (T r)) :
    ∀ r ∈ e.arch.registers, (T r).sort = r.type.sort := by
  intro r hr
  obtain ⟨n, s, ht, hs, -⟩ := h.tidy.vars (hT r hr)
  rw [ht, hs]
  rfl

theorem store_since (h : e.Chaotic new) (hT : ∀ r ∈ e.arch.registers, e.vars.lookup r = some (T r))
    (m : Model) : ∀ r ∈ e.arch.registers, ((new.lookup r).getD (T r)).value m =
      if r ∈ e.arch.callerSaved then m.store new r else m.store e.vars r := by
  intro r hr
  cases hl : new.lookup r with
  | some t =>
    rw [if_pos (h.mem_saved.mpr (hl ▸ rfl)), Model.store_of_lookup hl]
    rfl
  | none =>
    rw [if_neg fun hsaved => by simpa [hl] using h.mem_saved.mp hsaved]
    exact store_eq hT m r hr

theorem sort_since (h : e.Chaotic new) (hT : ∀ r ∈ e.arch.registers, e.vars.lookup r = some (T r)) :
    ∀ r ∈ e.arch.registers, ((new.lookup r).getD (T r)).sort = r.type.sort := by
  intro r hr
  cases hl : new.lookup r with
  | some t => exact (h.sort hl).symm
  | none => exact h.sort_eq hT r hr

/-- The constraint of a contract is about the state behind a call. -/
theorem contracts (h : e.Chaotic new) (hT : ∀ r ∈ e.arch.registers, e.vars.lookup r = some (T r))
    (hqs : e.Replaces callee [] qs) {pre post : String} {n : Nat} {before behind after : Constr}
    (hbefore : Smt.Tells (e.arch.declared T []) pre n before)
    (hbehind : Smt.Tells (e.arch.declaredSince T new) post (n + 1) behind) (hafter : after.Fresh n)
    {F : Term .bool} (hF : after.toFormula = .ok F) :
    ∃ t, (Constr.clause (n + 5) [] [before, .clause (n + 4) [behind]
        [.subst (n + 3) (.subst (n + 2) after (new.map fun p => (T p.1, p.2))) qs]]).toFormula = .ok t ∧
      e.Contracts callee new pre post F t := by
  have hps := h.coherent hT
  have hqs' := hqs.coherent h.tidy .nil
  obtain ⟨t, ht, hholds⟩ := (hafter.ledger hF).contract .refl hbefore hbehind hps hqs'
  refine ⟨t, ht, fun m => ?_⟩
  obtain ⟨hret, -⟩ := hqs.returned h.tidy .nil (hqs'.assigned_update m)
  obtain ⟨hreturned, hstore⟩ := h.behind hT hret (hps.assigned_update _)
  refine ⟨_, hreturned, hstore, ?_⟩
  have hpre := hbefore.truth (Arch.lookup_declared h.arch (store_eq hT m))
  have hpost := hbehind.truth (Arch.lookup_declaredSince h.arch (store_eq hT m) (h.store_since hT m))
  rw [hholds, hafter.truth hF, hpre, hpost]

end Env.Chaotic

namespace Walk

variable {side : Side} {w w₁ : World} {F : Fault → Prop}

theorem fresh_fetches {type : Ty} {s : TSort} (hs : type.sort = .ok s) (name : String) (w : World) :
    Outcome (fun t w' => Fetches side w w' ∧
      t = ⟨s, .const ((w.env side).names.numbered (w.env side).names.next name) s⟩) F
      (on side (Env.fresh name type)) w := by
  have hok : Env.fresh name type (w.env side) =
      .ok ⟨s, .const ((w.env side).names.fresh name).1 s⟩
        { w.env side with names := ((w.env side).names.fresh name).2 } := by
    unfold Env.fresh
    refine (EnvM.bind_of_ok (show Env.newName name (w.env side) = .ok _ _ from rfl)).trans ?_
    unfold Env.const
    rw [hs]
    rfl
  refine .on (fun t e h => ?_) fun f e h => ?_
  · have hfetches := Fetches.on (.fresh True.intro name type) (.fresh name type _) h
    cases hok.symm.trans h
    exact ⟨hfetches, rfl⟩
  · cases hok.symm.trans h

/-- Constants are drawn one after the other. -/
theorem draws_fetches {vs : List Var} (hv : ∀ v ∈ vs, v.sorted) (name : String) (w : World) :
    Outcome (fun new w' => Fetches side w w' ∧ (w.env side).Generates name vs new) F
      (vs.mapM fun v => do return (v, ← on side (Env.fresh (name ++ "_" ++ v.name) v.type))) w := by
  refine (Outcome.each side (I := fun w' => Fetches side w w') (Q := fun (v : Var) (p : Var × SomeTerm) _ =>
      p.1 = v ∧ ∃ k s, (w.env side).names.next ≤ k ∧ v.type.sort = .ok s ∧
        p.2 = ⟨s, .const ((w.env side).names.numbered k (name ++ "_" ++ v.name)) s⟩)
    (.refl side w) (fun v hmem w₁ hw₁ => ?_) fun _ => id).mono (fun new w' ⟨heach, _, hw'⟩ => ⟨hw', ?_⟩)
      fun _ hf => hf
  · obtain ⟨s, hs⟩ := Var.sorted_iff.mp (hv v hmem)
    refine (fresh_fetches hs _ w₁).bind fun t w₂ ⟨hw₂, ht⟩ => .pure ⟨⟨rfl, _, s, hw₁.gives.next, hs, ?_⟩,
      hw₂, hw₁.trans hw₂⟩
    rw [ht, NameSupply.numbered_congr hw₁.gives.space]
  · refine ⟨?_, fun {v t} hl => ?_⟩
    · rw [← List.forall₂_eq_eq_eq, List.forall₂_map_left_iff]
      exact heach.flip.imp fun _ _ h => h.1
    · obtain ⟨u, -, hu, hdrawn⟩ := Mirror.forall₂_right heach _ (Table.mem_of_lookup hl)
      obtain rfl : v = u := hu
      exact hdrawn

/-- A text gives a goal, or it fails to be read. -/
theorem formula_tells (side : Side) (text : String) (d : Smt.Decls) (w : World) :
    Outcome (fun c w' => AddsNode side w w' ∧ Smt.Tells d text w.nodes c)
      (fun f => f = .config (.badFormula text) ∧ Smt.assertions d text = none) (formula text d) w := by
  unfold formula
  split
  · rename_i hps
    exact .throw ⟨rfl, hps⟩
  · rename_i hps
    refine ⟨.of_nodes side w, rfl, rfl, Constr.formal_goal .., fun hd => ?_⟩
    rw [Smt.says_iff hd hps]
    exact iff_of_true rfl nofun
  · rename_i ps _ hps
    refine ⟨.of_nodes side w, rfl, rfl, Constr.formal_goal .., fun {m σ} hd => ?_⟩
    rw [Smt.says_iff hd hps, Constr.truth_goal]
    split
    · exact (List.forall_mem_singleton (p := fun q : Term .bool => q.holds m = true)).symm
    · rw [Spine.holds_and, List.all_eq_true]

theorem mkClause_adds (side : Side) (hyps goals : List Constr) (w : World) :
    Outcome (fun c w' => c = .clause w.nodes hyps goals ∧ AddsNode side w w') F (mkClause hyps goals) w :=
  ⟨rfl, .of_nodes side w⟩

theorem listed_terms {V : Table Var SomeTerm} {rs : List Var} {current : List (Var × SomeTerm)}
    (h : List.Forall₂ (fun r p => p.1 = r ∧ V.lookup r = some p.2) rs current) :
    ∃ T : Var → SomeTerm, (∀ r ∈ rs, V.lookup r = some (T r)) ∧ current = rs.map fun r => (r, T r) := by
  refine ⟨fun r => (V.lookup r).getD ⟨.bool, .truth true⟩, ?_⟩
  induction h with
  | nil => exact ⟨nofun, rfl⟩
  | @cons r p rs current hp _ ih =>
    obtain ⟨hlookups, hcurrent⟩ := ih
    obtain ⟨u, t⟩ := p
    obtain ⟨rfl : u = r, hl : V.lookup u = some t⟩ := hp
    have ht : (V.lookup u).getD ⟨.bool, .truth true⟩ = t := by rw [hl, Option.getD_some]
    refine ⟨List.forall_mem_cons.mpr ⟨hl.trans (congrArg some ht.symm), hlookups⟩, ?_⟩
    rw [List.map_cons, ← hcurrent]
    exact congrArg (fun x => (u, x) :: current) ht.symm

theorem lookup_listed (T : Var → SomeTerm) {rs : List Var} {r : Var} (hr : r ∈ rs) :
    (rs.map fun r => (r, T r)).lookup r = some (T r) := by
  induction rs with
  | nil => cases hr
  | cons r' rs ih =>
    rw [List.map_cons, List.lookup_cons]
    split
    · rename_i heq
      rw [eq_of_beq heq]
    · rename_i hne
      exact ih ((List.mem_cons.mp hr).resolve_left fun h => Bool.eq_false_iff.mp hne (beq_iff_eq.mpr h))

/-- Registers are asked for. -/
theorem current_fetches {rs : List Var} (hr : ∀ r ∈ rs, r.sorted) (w : World) :
    Outcome (fun current w' => Fetches side w w' ∧ ∃ T : Var → SomeTerm,
        (∀ r ∈ rs, (w'.env side).vars.lookup r = some (T r)) ∧ current = rs.map fun r => (r, T r)) F
      (rs.mapM fun r => do return (r, ← on side (Env.mkVar r))) w := by
  refine (Outcome.each side (I := fun _ => True) (Q := fun (r : Var) (p : Var × SomeTerm) w' =>
      p.1 = r ∧ (w'.env side).vars.lookup r = some p.2) True.intro (fun r hmem w₁ _ => ?_)
    fun hw hp => ⟨hp.1, hw.before.vars _ _ hp.2⟩).mono
      (fun current w' ⟨heach, hw', _⟩ => ⟨hw', listed_terms heach⟩) fun _ hf => hf
  refine ((mkVar_fetches (fun _ : True => hr r hmem) w₁).mono (fun _ _ h => h)
    fun _ hf => absurd True.intro hf).bind fun t w₂ ⟨hw₂, hl, _⟩ => .pure ?_
  exact ⟨⟨rfl, hl⟩, hw₂, True.intro⟩

theorem mapM_same {xs : List β} {f : β → Walk α} {g : β → α} (h : ∀ x ∈ xs, f x w = .ok (g x) w) :
    xs.mapM f w = .ok (xs.map g) w := by
  induction xs with
  | nil => rfl
  | cons x xs ih =>
    rw [List.mapM_cons, bind_of_ok (h x List.mem_cons_self),
      bind_of_ok (ih fun y hy => h y (List.mem_cons_of_mem x hy))]
    rfl

section

variable {name pre post : String} {callee : Sub} {after : Constr} {formula : Term .bool}

/-- Texts of a contract that are no formulas about registers. -/
def Refuses (a : Arch) (pre post : String) (f : Fault) : Prop :=
  (f = .config (.badFormula pre) ∧ Smt.Illegible (a.values fun r => r.type.sort) pre) ∨
    (f = .config (.badFormula post) ∧
      Smt.Illegible (a.valuesSince (fun r => r.type.sort) fun r => r.type.sort) post)

/-- The precondition of a call under a contract. -/
theorem contract_contracts (harch : (w.env side).arch ∈ Arch.all) (ht : (w.env side).Tidy)
    (hafter : after.Fresh w.nodes) (hformula : after.toFormula = .ok formula) :
    Outcome (fun c w' => ∃ t new, c.toFormula = .ok t ∧
        (w.env side).Generates name (w.env side).arch.callerSaved new ∧ (w'.env side).Chaotic new ∧
        (w'.env side).Contracts callee new pre post formula t)
      (Refuses (w.env side).arch pre post) (contract side callee name pre post after) w := by
  have hregular := Arch.regular _ harch
  have hregisters : ∀ r ∈ (w.env side).arch.registers, r.sorted := fun r hr =>
    hregular.sorted r (by simp [conventional, hr])
  have hsaved : ∀ r ∈ (w.env side).arch.callerSaved, r.sorted := fun r hr =>
    hregisters r ((Arch.registers_spec _ harch).2.2.2.2 hr)
  have hsp (_ : True) : ∃ n, (w.env side).arch.sp.type.sort = .ok (.bv n) := ⟨_, hregular.sp_sort⟩
  refine .env_bind ((current_fetches hregisters w).bind fun current w₁ hfetch => ?_)
  obtain ⟨hw₁, T, hT, rfl⟩ := hfetch
  refine (draws_fetches hsaved name w₁).bind fun new w₂ hdraws => ?_
  obtain ⟨hw₂, hnew⟩ := hdraws
  have ht₁ := hw₁.gives.tidy ht
  rw [← hw₁.arch] at harch hT hnew hsp ⊢
  have hchaotic₁ := hnew.chaotic ht₁ harch fun r hr => ⟨_, hT r hr⟩
  have hchaotic := hchaotic₁.later hw₂.before (hw₂.gives.tidy ht₁)
  have hsorts := hchaotic₁.sort_eq hT
  have hdeclared (name : String) : (((w₁.env side).arch.declared T []).lookup name).map (·.sort) =
      (w₁.env side).arch.values (fun r => r.type.sort) name := Arch.lookup_declared harch hsorts name
  refine ((formula_tells side pre ((w₁.env side).arch.declared T []) w₂).mono (fun _ _ h => h)
    fun f hf => .inl ⟨hf.1, _, hdeclared, hf.2⟩).bind fun before w₃ hpre => ?_
  obtain ⟨hw₃, hbefore⟩ := hpre
  refine ((formula_tells side post ((w₁.env side).arch.declaredSince T new) w₃).mono (fun _ _ h => h)
    fun f hf => .inr ⟨hf.1, _, Arch.lookup_declaredSince harch hsorts (hchaotic₁.sort_since hT),
      hf.2⟩).bind fun behind w₄ hpost => ?_
  obtain ⟨hw₄, hbehind⟩ := hpost
  -- registers that callees may change are replaced by drawn constants
  refine .step (mapM_same (g := fun p => T p.1) fun p hp => ?_) ?_
  · obtain ⟨hr, -⟩ := hchaotic.lookup_of_mem hp
    rw [hw₂.arch] at hr
    have hl := lookup_listed T ((Arch.registers_spec _ harch).2.2.2.2 hr)
    exact congrArg (fun x => present x w₄) hl
  have hsome : new.map (fun p => (T p.1, p.2)) ≠ [] := by
    rw [Ne, List.map_eq_nil_iff]
    exact fun hnil => (Arch.legible _ harch).2.2 (by rw [← hnew.keys, hnil]; rfl)
  have hnews : substitute after (new.map fun p => T p.1) (new.map (·.2)) =
      replaceAll after (new.map fun p => (T p.1, p.2)) := by
    rw [replaceAll, List.map_map, List.map_map]
    rfl
  rw [hnews]
  refine (replaceAll_adds side after hsome w₄).bind fun chaosed w₅ hreplaced => ?_
  obtain ⟨hchaosed, hw₅⟩ := hreplaced
  have henv : w₅.env side = w₂.env side := by rw [hw₅.env, hw₄.env, hw₃.env]
  rw [← hw₂.arch, ← henv] at hsp
  rw [← henv] at hchaotic
  refine ((returnEffects_fetches callee hsp hchaotic.tidy).mono (fun _ _ h => h)
    fun f hf => absurd True.intro hf).bind fun qs w₆ heffects => ?_
  obtain ⟨hw₆, hqs⟩ := heffects
  obtain ⟨q, hq, -⟩ := hqs.marks
  refine (replaceAll_adds side chaosed (List.ne_nil_of_mem hq) w₆).bind fun returned w₇ hreplaced => ?_
  obtain ⟨hreturned, hw₇⟩ := hreplaced
  refine (mkClause_adds side [behind] [returned] w₇).bind fun inner w₈ hclause => ?_
  obtain ⟨hinner, hw₈⟩ := hclause
  refine (mkClause_adds side [] [before, inner] w₈).mono (fun c w₉ hclause => ?_) fun _ hf => hf
  obtain ⟨hc, hw₉⟩ := hclause
  have hchaotic' := hchaotic.later hw₆.before (hw₆.gives.tidy hchaotic.tidy)
  have henv' : w₉.env side = w₆.env side := by rw [hw₉.env, hw₈.env, hw₇.env]
  have harch' : (w₆.env side).arch = (w₁.env side).arch := by rw [hw₆.arch, henv, hw₂.arch]
  have hT' : ∀ r ∈ (w₆.env side).arch.registers, (w₆.env side).vars.lookup r = some (T r) := by
    intro r hr
    rw [harch'] at hr
    refine hw₆.before.vars _ _ ?_
    rw [henv]
    exact hw₂.before.vars _ _ (hT r hr)
  have hn : w₂.nodes = w.nodes := hw₂.nodes.trans hw₁.nodes
  rw [← harch'] at hbefore hbehind
  rw [hn] at hbefore
  rw [hw₃.nodes, hn] at hbehind
  obtain ⟨t, ht', hcontracts⟩ := hchaotic'.contracts hT' hqs hbefore hbehind hafter hformula
  refine ⟨t, new, ?_, hnew.of_later hw₁.gives.space hw₁.gives.next, henv' ▸ hchaotic', henv' ▸ hcontracts⟩
  rw [hc, hinner, hreturned, hchaosed, hw₈.nodes, hw₇.nodes, hw₆.nodes, hw₅.nodes, hw₄.nodes, hw₃.nodes, hn]
  exact ht'

/-- The precondition of a call under a contract is true for all values of the drawn constants if and only
if the contract guarantees the postcondition. There is one unless a text is no formula. -/
theorem contract_means (harch : (w.env side).arch ∈ Arch.all) (ht : (w.env side).Tidy)
    (hafter : after.Fresh w.nodes) (hformula : after.toFormula = .ok formula) (tid : String) :
    (∃ f w', summarize side (.contract name pre post) callee after tid w = .error f w' ∧
      Refuses (w.env side).arch pre post f) ∨
    ∃ c w' t new, summarize side (.contract name pre post) callee after tid w = .ok c w' ∧
      c.toFormula = .ok t ∧ (w.env side).Generates name (w.env side).arch.callerSaved new ∧
      ((∀ v n s, new.lookup v = some ⟨s, .const n s⟩ → (n, s) ∉ formula.constants) →
        ∀ m, (∀ m₁, m.Off new m₁ → t.holds m₁ = true) ↔
          (w'.env side).Guarantees callee pre post formula m) := by
  have hcontract : Outcome _ (Refuses (w.env side).arch pre post)
      (summarize side (.contract name pre post) callee after tid) w :=
    .env_bind (contract_contracts harch ht hafter hformula)
  cases hrun : summarize side (.contract name pre post) callee after tid w with
  | error f w' => exact .inl ⟨f, w', rfl, hcontract.of_error hrun⟩
  | ok c w' =>
    obtain ⟨t, new, hc, hnew, hchaotic, hcontracts⟩ := hcontract.of_ok hrun
    exact .inr ⟨c, w', t, new, rfl, hc, hnew, fun hF m => hchaotic.means hF hcontracts m⟩

theorem contract_means_spilling :
    (∃ f w', summarize .orig (.contract "spill" "(= RDI RSI)" "(= RAX init_RDI)") spilling
        (.goal 0 "spilled" spilled none) "%call" behindSpill = .error f w' ∧
      Refuses Arch.x8664 "(= RDI RSI)" "(= RAX init_RDI)" f) ∨
    ∃ c w' t new, summarize .orig (.contract "spill" "(= RDI RSI)" "(= RAX init_RDI)") spilling
        (.goal 0 "spilled" spilled none) "%call" behindSpill = .ok c w' ∧
      c.toFormula = .ok t ∧ (behindSpill.env .orig).Generates "spill" Arch.x8664.callerSaved new ∧
      ((∀ v n s, new.lookup v = some ⟨s, .const n s⟩ → (n, s) ∉ spilled.constants) →
        ∀ m, (∀ m₁, m.Off new m₁ → t.holds m₁ = true) ↔
          (w'.env .orig).Guarantees spilling "(= RDI RSI)" "(= RAX init_RDI)" spilled m) :=
  contract_means (show (behindSpill.env .orig).arch ∈ Arch.all by decide) (.start ..)
    (.goal Nat.zero_lt_one ..) (Constr.toFormula_goal ..) "%call"

end

end Walk

end Precond
