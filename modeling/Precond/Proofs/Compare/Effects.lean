import Precond.Proofs.Compare.Duo
import Precond.Proofs.Walk.Steady

/-! The effects of calls in two walks side by side. Both programs replace the same outputs by the same
functions of inputs that agree, mark the same callee as called and move their stack pointers alike, so
that constraints behind a call that are paired are paired before it (`Duo.Abreast.summarize`). -/

namespace Precond

open IR Precond.Flow Walk

/-! ### Registers -/

theorem IR.Arch.registers_spec : ∀ a ∈ Arch.all, a.sp ∈ a.registers ∧ a.mem ∈ a.registers ∧
    a.gprs ⊆ a.registers ∧ a.inputRegs ⊆ a.registers ∧ a.callerSaved ⊆ a.registers := by decide

theorem IR.Arch.outputs_nodup : ∀ a ∈ Arch.all, a.callerSaved.Nodup ∧ a.sp ∉ a.callerSaved := by decide

theorem IR.Arch.wide : ∀ a ∈ Arch.all, ∀ r ∈ a.gprs ++ a.inputRegs ++ a.callerSaved,
    r.type = .word a.addrSize := by decide

/-- What is replaced already is not replaced once more; different constants all are. -/
theorem foldl_simultaneous {ps qs : List (SomeTerm × SomeTerm)} (h : Simultaneous (ps ++ qs)) :
    qs.foldl (fun pairs p => if pairs.any fun q => p.1.same q.1 then pairs else pairs ++ [p]) ps =
      ps ++ qs := by
  induction qs generalizing ps with
  | nil => exact (List.append_nil ps).symm
  | cons q qs ih =>
    have hnew : (ps.any fun p => q.1.same p.1) = false := by
      refine List.any_eq_false.mpr fun p hp hsame => ?_
      obtain ⟨n, s, x, rfl⟩ := h.const (List.mem_append_left _ hp)
      have he := SomeTerm.same_const hsame
      have hnodup := h.nodup
      rw [List.map_append, List.nodup_append] at hnodup
      exact hnodup.2.2 _ (List.mem_map_of_mem hp) _ List.mem_cons_self he.symm
    rw [List.foldl_cons, hnew, if_neg Bool.false_ne_true]
    rw [List.append_cons] at h
    exact (ih h).trans (List.append_cons ..).symm

namespace Duo

variable {D : Duo} {side : Side} {e e₁ e' : Env} {c c' : Constr}

/-! ### Replacements -/

theorem Each.left {A : γ → α → β → Prop} {B : γ → α → Prop} {xs : List γ} {as : List α} {bs : List β}
    (h : Each A xs as bs) (hB : ∀ x a b, A x a b → B x a) : List.Forall₂ B xs as := by
  induction h with
  | nil => exact .nil
  | cons hx _ ih => exact .cons (hB _ _ _ hx) ih

theorem Each.right {A : γ → α → β → Prop} {B : γ → β → Prop} {xs : List γ} {as : List α} {bs : List β}
    (h : Each A xs as bs) (hB : ∀ x a b, A x a b → B x b) : List.Forall₂ B xs bs := by
  induction h with
  | nil => exact .nil
  | cons hx _ ih => exact .cons (hB _ _ _ hx) ih

theorem Each.both {A : γ → α → β → Prop} {B : α → β → Prop} {xs : List γ} {as : List α} {bs : List β}
    (h : Each A xs as bs) (hB : ∀ x a b, A x a b → B a b) : List.Forall₂ B as bs := by
  induction h with
  | nil => exact .nil
  | cons hx _ ih => exact .cons (hB _ _ _ hx) ih

theorem Each.append {A : γ → α → β → Prop} {xs xs' : List γ} {as as' : List α} {bs bs' : List β}
    (h : Each A xs as bs) (h' : Each A xs' as' bs') : Each A (xs ++ xs') (as ++ as') (bs ++ bs') := by
  induction h with
  | nil => exact h'
  | cons hx _ ih => exact .cons hx ih

theorem Each.map {A : γ → α → β → Prop} {B : δ → α → β → Prop} {xs : List γ} {as : List α} {bs : List β}
    (h : Each A xs as bs) (f : γ → δ) (hB : ∀ x a b, A x a b → B (f x) a b) : Each B (xs.map f) as bs := by
  induction h with
  | nil => exact .nil
  | cons hx _ ih => exact .cons (hB _ _ _ hx) ih

theorem Keyed.const {key : Option Var} {p : SomeTerm × SomeTerm} (h : D.Keyed side key p) :
    ∃ n s x, p = (⟨s, .const n s⟩, ⟨s, x⟩) := by
  cases h with
  | @var v old new hv hs =>
    obtain ⟨n, s, rfl⟩ := (D.mirror.separate side).const hv
    obtain ⟨s', x⟩ := new
    obtain rfl : s' = s := hs
    exact ⟨n, s', x, rfl⟩
  | flag => exact ⟨_, _, _, rfl⟩

/-- A term is replaced for one key only. -/
theorem Keyed.inj {j k : Option Var} {p q : SomeTerm × SomeTerm} (hp : D.Keyed side j p)
    (hq : D.Keyed side k q) (h : p.1 = q.1) : j = k := by
  cases hp with
  | var hv =>
    cases hq with
    | var hu =>
      cases h
      exact congrArg some ((D.mirror.separate side).inj hv hu)
    | flag => exact absurd (congrArg Sigma.fst h) (D.mirror.sorted side hv)
  | flag =>
    cases hq with
    | var hu => exact absurd (congrArg Sigma.fst h.symm) (D.mirror.sorted side hu)
    | flag => rfl

theorem Keyed.simultaneous {keys : List (Option Var)} {ps : List (SomeTerm × SomeTerm)}
    (h : List.Forall₂ (D.Keyed side) keys ps) (hk : keys.Nodup) : Simultaneous ps where
  const hp :=
    let ⟨_, _, hkey⟩ := Mirror.forall₂_right h _ hp
    hkey.const
  nodup := by
    induction h with
    | nil => exact List.nodup_nil
    | cons hkey hrest ih =>
      obtain ⟨hnot, hk⟩ := List.nodup_cons.mp hk
      refine List.nodup_cons.mpr ⟨fun hmem => ?_, ih hk⟩
      obtain ⟨q, hq, he⟩ := List.mem_map.mp hmem
      obtain ⟨k, hkmem, hkey'⟩ := Mirror.forall₂_right hrest q hq
      exact hnot (hkey.inj hkey' he.symm ▸ hkmem)

theorem Moving.var {v : Var} {old old' new new' : SomeTerm} (hold : D.Binds v old old')
    (hnew : D.Alike new new') (hs : new.1 = old.1) (hs' : new'.1 = old'.1) :
    D.Moving (some v) (old, new) (old', new') :=
  ⟨.var hold.1 hs, .var hold.2 hs', .var hold.1 hold.2 hnew⟩

namespace Follows

variable {f n : String} {p : Term .bool} {dom : List TSort} {ran : TSort} {d : FuncDecl} {s : Sub}
  {h : Handler}

theorem getCalled (hD : D.Fair) (hf : D.Follows side e) (hp : Env.getCalled f e = .ok p e₁) :
    D.Follows side e₁ ∧ e₁.called.lookup f = some p ∧
      ∃ names called, e₁ = { e with names, called } := by
  have hgives := hf.gives.trans (ending_of_ok hp ▸ Env.Gives.getCalled f e)
  obtain ⟨names, called, rfl, hl, hgrows, -⟩ := Env.getCalled_ok hp
  rw [hf.canonical hD] at hl
  refine ⟨{ hf with
    gives := hgives
    called := hf.called.trans hgrows }, hl, names, called, rfl⟩

theorem declare (hf : D.Follows side e) (hd : Env.declare n dom ran e = .ok d e₁)
    (hn : D.Declares n ⟨n, dom, ran⟩) : D.Follows side e₁ ∧ D.Declares n d ∧
      d = (e.funcs.lookup n).getD ⟨n, dom, ran⟩ ∧ ∃ funcs, e₁ = { e with funcs } ∧
        ∀ k, funcs.lookup k = if k = n then some d else e.funcs.lookup k := by
  have hgives := hf.gives.trans (ending_of_ok hd ▸ Env.Gives.declare n dom ran e)
  cases hl : e.funcs.lookup n with
  | some d' =>
    cases (Env.declare_of_lookup hl).symm.trans hd
    refine ⟨hf, hf.funcs hl, rfl, _, rfl, fun k => ?_⟩
    split
    · rename_i hk
      rw [hk, hl]
    · rfl
  | none =>
    cases (Env.declare_of_none hl).symm.trans hd
    have hlookup (k : String) : (Table.put e.funcs n ⟨n, dom, ran⟩).lookup k =
        if k = n then some ⟨n, dom, ran⟩ else e.funcs.lookup k := by
      split
      · rename_i hk
        rw [hk, Table.lookup_put_self]
      · rename_i hk
        exact Table.lookup_put_of_ne _ _ hk
    refine ⟨{ hf with
      gives := hgives
      funcs := fun {k d} hk => ?_ }, hn, rfl, _, rfl, hlookup⟩
    dsimp only at hk
    rw [hlookup] at hk
    split at hk
    · rename_i hkn
      cases hk
      exact hkn ▸ hn
    · exact hf.funcs hk

/-- The rule that is chosen for a callee: none is that would expand it or draw its result. -/
theorem chosen (hD : D.Fair) (hf : D.Follows side e) (hs : s.name ∈ D.callees) :
    ∃ r ∈ usual, e.chosen? s = some r ∧ (D.base side).chosen? s = some r := by
  have hpolicy : e.chosen? s = (D.base side).chosen? s := by
    rw [Env.chosen?, Env.chosen?, hf.rules, hf.arch, hf.fallback]
  simp only [hpolicy, and_self]
  have hno : CallRule.applies (D.base side).arch s (.inline []) = false := rfl
  have hnondet : CallRule.applies (D.base side).arch s .verifierNondet = false :=
    Bool.and_eq_false_iff.mpr (.inl (Bool.eq_false_iff.mpr (hD.determined hs)))
  rw [Env.chosen?, hD.rules, hD.fallback, List.find?_cons, hno, CallRule.standard]
  simp only [List.find?_cons, hnondet, List.find?_nil]
  cases CallRule.applies (D.base side).arch s .verifierAssume
  · cases CallRule.applies (D.base side).arch s .empty
    · cases CallRule.applies (D.base side).arch s .chaosCallerSaved
      · exact ⟨.default, by decide, rfl⟩
      · exact ⟨.chaosCallerSaved, by decide, rfl⟩
    · exact ⟨.empty, by decide, rfl⟩
  · exact ⟨.verifierAssume, by decide, rfl⟩

theorem handler (hD : D.Fair) (hf : D.Follows side e) (hs : s.name ∈ D.callees)
    (hh : Env.handler s e = .ok h e₁) : D.Follows side e₁ ∧ D.Handles h ∧
      (∃ r, (D.base side).chosen? s = some r ∧ h = (e.handlers.lookup s.tid).getD ⟨r, s⟩) ∧
      ∃ handlers, e₁ = { e with handlers } ∧
        ∀ k, handlers.lookup k = if k = s.tid then some h else e.handlers.lookup k := by
  have hgives := hf.gives.trans (ending_of_ok hh ▸ Env.Gives.handler s e)
  obtain ⟨r, hr, hchosen, hbase⟩ := hf.chosen hD hs
  cases hl : e.handlers.lookup s.tid with
  | some h' =>
    cases (Env.handler_of_lookup hl).symm.trans hh
    refine ⟨hf, hf.handlers hl, ⟨r, hbase, rfl⟩, _, rfl, fun k => ?_⟩
    split
    · rename_i hk
      rw [hk, hl]
    · rfl
  | none =>
    rw [Env.handler_of_none hl, hchosen] at hh
    cases hh
    have hlookup (k : String) : (Table.put e.handlers s.tid ⟨r, s⟩).lookup k =
        if k = s.tid then some ⟨r, s⟩ else e.handlers.lookup k := by
      split
      · rename_i hk
        rw [hk, Table.lookup_put_self]
      · rename_i hk
        exact Table.lookup_put_of_ne _ _ hk
    refine ⟨{ hf with
      gives := hgives
      handlers := fun {k h} hk => ?_ }, ⟨hr, hs⟩, ⟨r, hbase, rfl⟩, _, rfl, hlookup⟩
    dsimp only at hk
    rw [hlookup] at hk
    split at hk
    · cases hk
      exact ⟨hr, hs⟩
    · exact hf.handlers hk

/-- The flag of one function is another one than those of others. -/
theorem flag_iff {g k n : String} (hf : D.Follows side e)
    (hn : e.called.lookup f = some (.const n .bool))
    (hk : (D.base side).called.lookup g = some (.const k .bool)) : k = n ↔ g = f := by
  have hk' := hf.called _ _ hk
  constructor
  · rintro rfl
    obtain ⟨_, he, hg⟩ := hf.tidy.called hn
    obtain ⟨_, he', hg'⟩ := hf.tidy.called hk'
    cases he
    cases he'
    have hname := congrArg String.toList (hg'.inj hg)
    rw [String.toList_append, String.toList_append] at hname
    exact String.toList_inj.mp (List.append_cancel_left hname)
  · rintro rfl
    cases hk'.symm.trans hn
    rfl

end Follows

/-! ### Values of terms -/

/-- The terms have equal values where the second program shows the state of the first one. -/
def Same (t t' : SomeTerm) : Prop := ∀ m₁ m₂, D.mirror.Shows m₁ m₂ → t'.value m₂ = t.value m₁

theorem Same.alike {t t' : SomeTerm} (h : D.Same t t') : D.Alike t t' := fun m₁ m₂ hm =>
  (h m₁ m₂ hm).symm ▸ .refl _

/-- A register that is no memory has equal values. -/
theorem Binds.same {v : Var} {t t' : SomeTerm} {w : Int} (h : D.Binds v t t') (hv : v.type = .word w) :
    D.Same t t' := by
  intro m₁ m₂ hm
  have halike := h.alike m₁ m₂ hm
  obtain ⟨n, s, rfl, hs, -⟩ := (D.tidy .orig).vars h.1
  rw [hv, Ty.sort] at hs
  split at hs <;> cases hs
  exact halike.word

theorem applyTo_value {m₁ m₂ : Model} {r : TSort} {xs ys : List SomeTerm}
    (hxs : List.Forall₂ (fun x y => y.value m₂ = x.value m₁) xs ys) {dom : List TSort}
    {f g : Spine dom r} {t t' : Term r} (hf : g.eval m₂ = f.eval m₁) (ht : f.applyTo xs = .ok t)
    (ht' : g.applyTo ys = .ok t') : t'.eval m₂ = t.eval m₁ := by
  induction hxs generalizing dom with
  | nil =>
    cases dom with
    | nil =>
      cases ht
      cases ht'
      exact hf
    | cons => cases ht
  | @cons x y xs ys hxy _ ih =>
    cases dom with
    | nil => cases ht
    | cons s dom =>
      obtain ⟨x₁, hx₁, h₁⟩ := bind_eq_ok ht
      obtain ⟨y₁, hy₁, h₁'⟩ := bind_eq_ok ht'
      obtain rfl := SomeTerm.as_eq_ok hx₁
      obtain rfl := SomeTerm.as_eq_ok hy₁
      have hvalue : y₁.eval m₂ = x₁.eval m₁ := eq_of_heq (Sigma.mk.inj hxy).2
      refine ih (f := f.app x₁) (g := g.app y₁) ?_ h₁ h₁'
      rw [Spine.eval, Spine.eval, hf, hvalue]

/-- A function of inputs that are the same in both programs; one without inputs is a constant that
neither program owns. -/
theorem apply_alike (hD : D.Fair) {f : FuncDecl} {args args' : List SomeTerm} {t t' : SomeTerm}
    (hf : D.Declares f.name f) (hargs : List.Forall₂ D.Same args args')
    (ht : f.apply args = .ok t) (ht' : f.apply args' = .ok t') :
    D.Alike t t' ∧ t.1 = f.ran ∧ t'.1 = f.ran := by
  have hlen := hargs.length_eq
  unfold FuncDecl.apply at ht ht'
  split at ht
  · rename_i hdom
    cases hargs
    rw [hdom] at ht'
    cases ht
    cases ht'
    obtain ⟨callee, hcallee, r, hr, hn, -, hs⟩ := hf
    have hfree (side : Side) : ¬ D.mirror.Owns side f.name f.ran := hn ▸ hD.free hcallee hr hs side
    refine ⟨Same.alike fun m₁ m₂ hm => ?_, rfl, rfl⟩
    exact congrArg (Sigma.mk f.ran) (hm.rest (hfree .orig) (hfree .mod))
  · rename_i hsome
    split at ht'
    · rename_i hdom
      obtain rfl := List.eq_nil_of_length_eq_zero hlen
      exact absurd rfl (hsome hdom)
    · obtain ⟨x, hx, h⟩ := bind_eq_ok ht
      obtain ⟨x', hx', h'⟩ := bind_eq_ok ht'
      cases h
      cases h'
      refine ⟨Same.alike fun m₁ m₂ hm => ?_, rfl, rfl⟩
      refine congrArg (Sigma.mk f.ran) (applyTo_value (hargs.imp fun _ _ h => h m₁ m₂ hm) ?_ hx hx')
      exact congrFun (congrFun (congrFun hm.func f.name) f.dom) f.ran

theorem Binds.sort {v : Var} {t t' : SomeTerm} (h : D.Binds v t t') :
    v.type.sort = .ok t.1 ∧ v.type.sort = .ok t'.1 := by
  obtain ⟨n, s, rfl, hs, -⟩ := (D.tidy .orig).vars h.1
  obtain ⟨n', s', rfl, hs', -⟩ := (D.tidy .mod).vars h.2
  exact ⟨hs, hs'⟩

/-! ### Actions -/

/-- What every return replaces. -/
def returned (D : Duo) : List (Option Var) :=
  (if D.arch.popsReturnAddr then [some D.arch.sp] else []) ++ [none]

theorem keys_nodup (hD : D.Fair) : (D.arch.callerSaved.map some ++ D.returned).Nodup := by
  obtain ⟨hnodup, hsp⟩ := Arch.outputs_nodup _ hD.known_arch
  have hmap := hnodup.map (Option.some_injective Var)
  have hne : ∀ r ∈ D.arch.callerSaved, r ≠ D.arch.sp := fun r hr he => hsp (he ▸ hr)
  unfold returned
  cases D.arch.popsReturnAddr with
  | true => simpa [List.nodup_append, hmap] using hne
  | false => simpa [List.nodup_append] using hmap

theorem Facing.arch (hD : D.Fair) (hf : D.Facing e e') : e.arch = D.arch ∧ e'.arch = D.arch :=
  ⟨hf.orig.arch, hf.mod.arch.trans hD.arch⟩

namespace Abreast

/-- What an action gives without reading or changing anything. -/
theorem equal (x : Except Fault α) : D.Abreast (fun a b => b = a ∧ x = .ok a) (liftM x) (liftM x) :=
  lift fun _ _ ha hb => ⟨Except.ok.inj (hb.symm.trans ha), ha⟩

theorem getCalled (hD : D.Fair) (f : String) :
    D.Abreast (fun p p' => D.Moving none (⟨_, p⟩, ⟨_, .truth true⟩) (⟨_, p'⟩, ⟨_, .truth true⟩))
      (Walk.on .orig (Env.getCalled f)) (Walk.on .mod (Env.getCalled f)) := by
  refine on fun hf hp hp' => ?_
  obtain ⟨ho, hl, names, called, rfl⟩ := hf.orig.getCalled hD hp
  obtain ⟨hm, hl', names', called', rfl⟩ := hf.mod.getCalled hD hp'
  refine ⟨⟨ho, hm, hf.funcs, hf.handlers, hf.frames⟩, ?_⟩
  obtain ⟨n, rfl, hg⟩ := ho.tidy.called hl
  obtain ⟨n', rfl, hg'⟩ := hm.tidy.called hl'
  refine ⟨.flag, .flag, .flag ⟨f, _, ho.gives, hg⟩ ⟨f, _, hm.gives, hg'⟩ ?_⟩
  rintro k k' ⟨g, hk, hk'⟩
  rw [ho.flag_iff hl hk, hm.flag_iff hl' hk']

theorem declare {n : String} {dom : List TSort} {ran : TSort} (hn : D.Declares n ⟨n, dom, ran⟩) :
    D.Abreast (fun d d' => d' = d ∧ D.Declares n d) (Walk.on .orig (Env.declare n dom ran))
      (Walk.on .mod (Env.declare n dom ran)) := by
  refine on fun hf hd hd' => ?_
  obtain ⟨ho, hdecl, rfl, funcs, rfl, hlookup⟩ := hf.orig.declare hd hn
  obtain ⟨hm, -, rfl, funcs', rfl, hlookup'⟩ := hf.mod.declare hd' hn
  rw [hf.funcs] at hlookup' ⊢
  refine ⟨⟨ho, hm, fun k => ?_, hf.handlers, hf.frames⟩, rfl, hdecl⟩
  rw [hlookup, hlookup', hf.funcs]

/-- The rule for calls of a function is chosen for both programs. -/
theorem handler (hD : D.Fair) {s : Sub} (hs : s.name ∈ D.callees) :
    D.Abreast (fun h h' => h' = h ∧ D.Handles h) (Walk.on .orig (Env.handler s))
      (Walk.on .mod (Env.handler s)) := by
  refine on fun hf hh hh' => ?_
  obtain ⟨ho, hhandles, ⟨r, hr, rfl⟩, handlers, rfl, hlookup⟩ := hf.orig.handler hD hs hh
  obtain ⟨hm, -, ⟨r', hr', rfl⟩, handlers', rfl, hlookup'⟩ := hf.mod.handler hD hs hh'
  have hrule : (D.base .mod).chosen? s = (D.base .orig).chosen? s := by
    rw [Env.chosen?, Env.chosen?, hD.rules, hD.rules, hD.fallback, hD.fallback, hD.arch]
    rfl
  cases (hrule.trans hr).symm.trans hr'
  rw [hf.handlers] at hlookup' ⊢
  refine ⟨⟨ho, hm, hf.funcs, fun k => ?_, hf.frames⟩, rfl, hhandles⟩
  rw [hlookup, hlookup', hf.handlers]

theorem poppedSp (hD : D.Fair) :
    D.Abreast (D.Moving (some D.arch.sp)) (Walk.poppedSp .orig) (Walk.poppedSp .mod) := by
  refine env fun e e' hf => ?_
  rw [(hf.arch hD).1, (hf.arch hD).2]
  refine (mkVar hD (.inr (Arch.registers_spec _ hD.known_arch).1)).bind fun sp sp' hsp => ?_
  refine (equal _).bind fun s s' ⟨hs, _⟩ => ?_
  subst hs
  cases s' with
  | bv w =>
    refine (lift (A := fun x x' => sp = ⟨_, x⟩ ∧ sp' = ⟨_, x'⟩) fun x x' hx hx' =>
      ⟨SomeTerm.as_eq_ok hx, SomeTerm.as_eq_ok hx'⟩).bind fun x x' ⟨hx, hx'⟩ => pure ?_
    subst hx hx'
    refine .var hsp (Same.alike fun m₁ m₂ hm => ?_) rfl rfl
    have hbits : x'.bits m₂ = x.bits m₁ := eq_of_heq (Sigma.mk.inj (hsp.alike.word hm)).2
    exact congrArg (fun b => Value.word (b + _)) hbits
  | bool => exact throw _
  | mem => exact throw _

theorem returnEffects (hD : D.Fair) (callee : Sub) : D.Abreast (Each D.Moving D.returned)
    (Walk.returnEffects .orig callee) (Walk.returnEffects .mod callee) := by
  have hlast {keys : List (Option Var)} {popped popped' : List (SomeTerm × SomeTerm)}
      (hp : Each D.Moving keys popped popped') : D.Abreast (Each D.Moving (keys ++ [none]))
        (do
          let called ← Walk.on .orig (Env.getCalled callee.name)
          return popped ++ [(⟨_, called⟩, ⟨_, .truth true⟩)])
        (do
          let called ← Walk.on .mod (Env.getCalled callee.name)
          return popped' ++ [(⟨_, called⟩, ⟨_, .truth true⟩)]) :=
    (getCalled hD _).bind fun called called' hcalled => pure (hp.append (.cons hcalled .nil))
  refine env fun e e' hf => ?_
  rw [(hf.arch hD).1, (hf.arch hD).2, returned]
  cases D.arch.popsReturnAddr with
  | true => exact (poppedSp hD).bind fun p p' hp => hlast (.cons hp .nil)
  | false => exact hlast .nil

/-- What a summary replaces. -/
theorem summaryPairs (hD : D.Fair) {callee : Sub} (hc : callee.name ∈ D.callees) {inputs : List Var}
    (hin : ∀ v ∈ inputs, v ∈ D.arch.registers ∧ v.type = .word D.arch.addrSize) :
    D.Abreast (Each D.Moving (D.arch.callerSaved.map some ++ D.returned))
      (Walk.summaryPairs .orig callee inputs D.arch.callerSaved)
      (Walk.summaryPairs .mod callee inputs D.arch.callerSaved) := by
  have hwide {r : Var} (hr : r ∈ D.arch.callerSaved) : r.type = .word D.arch.addrSize :=
    Arch.wide _ hD.known_arch r (List.mem_append_right _ hr)
  refine (mapM (A := fun _ => D.Same) fun v hv =>
    (mkVar hD (.inr (hin v hv).1)).mono fun t t' ht => ht.same (hin v hv).2).bind
      fun args args' hargs => ?_
  refine (mapM (A := fun _ s s' => s' = s) fun v _ =>
    (equal v.type.sort).mono fun s s' hs => hs.1).bind fun sorts sorts' hsorts => ?_
  obtain rfl : sorts' = sorts := by
    have heq := hsorts.both (B := fun s s' => s = s') fun _ _ _ h => h.symm
    rw [List.forall₂_eq_eq_eq] at heq
    exact heq.symm
  refine env fun e e' hf => ?_
  rw [hf.orig.canonical hD, hf.mod.canonical hD]
  refine (mapM (A := fun out => D.Moving (some out)) fun out hout => ?_).bind fun ps ps' hps => ?_
  · refine (equal _).bind fun ran ran' ⟨hran, hs⟩ => ?_
    subst hran
    refine (declare ⟨_, hc, out, hout, rfl, rfl, hs⟩).bind fun d d' ⟨hd, hdecl⟩ => ?_
    subst hd
    have hreg := (Arch.registers_spec _ hD.known_arch).2.2.2.2 hout
    refine (mkVar hD (.inr hreg)).bind fun old old' hold => ?_
    refine (lift fun t t' ht ht' => apply_alike hD ?_ ?_ ht ht').bind fun t t' ⟨ht, hsort, hsort'⟩ => ?_
    · obtain ⟨k, hk, r, hr, hn, hname, hran⟩ := hdecl
      exact ⟨k, hk, r, hr, hname.trans hn, rfl, hran⟩
    · exact hargs.both fun _ _ _ h => h
    · obtain ⟨k, hk, r, hr, hn, hname, hran⟩ := hdecl
      rw [hwide hr, ← hwide hout] at hran
      obtain ⟨hold₁, hold₂⟩ := hold.sort
      rw [hran] at hold₁ hold₂
      exact pure (.var hold ht (hsort.trans (Except.ok.inj hold₁)) (hsort'.trans (Except.ok.inj hold₂)))
  · refine (returnEffects hD callee).bind fun qs qs' hqs => pure ?_
    have hall := (hps.map some fun _ _ _ h => h).append hqs
    rw [foldl_simultaneous (Keyed.simultaneous (hall.left fun _ _ _ h => h.orig) (keys_nodup hD)),
      foldl_simultaneous (Keyed.simultaneous (hall.right fun _ _ _ h => h.mod) (keys_nodup hD))]
    exact hall

/-- The first argument of a call is looked up. -/
theorem firstArg (hD : D.Fair) :
    D.Abreast (fun _ _ => True) (Walk.firstArg .orig) (Walk.firstArg .mod) := by
  obtain ⟨-, hmem, -, hinputs, -⟩ := Arch.registers_spec _ hD.known_arch
  refine env fun e e' hf => ?_
  rw [(hf.arch hD).1, (hf.arch hD).2]
  split
  · rename_i r rest hregs
    have hr : r ∈ D.arch.registers := hinputs (hregs ▸ List.mem_cons_self)
    exact (mkVar hD (.inr hr)).mono fun _ _ _ => True.intro
  · exact (poppedSp hD).bind fun p p' _ => (mkVar hD (.inr hmem)).bind fun m m' _ =>
      lift fun _ _ _ _ => True.intro

/-! ### Summaries -/

/-- Replacements in constraints that are paired. -/
theorem replaceAll {keys : List (Option Var)} {ps ps' : List (SomeTerm × SomeTerm)}
    (h : Each D.Moving keys ps ps') (hk : keys.Nodup) (hc : D.Pair c c') :
    D.Abreast D.Pair (Walk.replaceAll c ps) (Walk.replaceAll c' ps') := by
  have hps := Keyed.simultaneous (h.left fun _ _ _ h => h.orig) hk
  have hps' := Keyed.simultaneous (h.right fun _ _ _ h => h.mod) hk
  have hmoves := h.both fun _ _ _ h => h.moves
  cases h with
  | nil => exact pure hc
  | @cons _ p p' _ ps ps' hp hrest =>
    refine (makes (Q := fun d => ∃ i, d = .subst i c (p :: ps))
      (R := fun d => ∃ i, d = .subst i c' (p' :: ps')) (fun h => ?_) fun h => ?_).mono ?_
    · obtain ⟨rfl, henv⟩ := replaceAll_ok h
      exact ⟨henv, _, rfl⟩
    · obtain ⟨rfl, henv⟩ := replaceAll_ok h
      exact ⟨henv, _, rfl⟩
    · rintro _ _ ⟨⟨i, rfl⟩, j, rfl⟩
      exact hc.subst hps hps' hmoves

/-- Under conditions of its own each program asks for less. -/
theorem assumed {cond cond' : Term .bool} {name : String} {tid : Option String} (hc : D.Pair c c') :
    D.Abreast D.Pair (do Walk.mkClause [← Walk.mkGoal name cond tid] [c])
      (do Walk.mkClause [← Walk.mkGoal name cond' tid] [c']) := by
  have hgoal {w w' : World} {d p : Constr} {q : Term .bool}
      (h : (do Walk.mkClause [← Walk.mkGoal name q tid] [p]) w = .ok d w') :
      (∀ side, w'.env side = w.env side) ∧ ∃ i j, d = .clause i [.goal j name q tid] [p] := by
    obtain ⟨g, w₁, hg, h₁⟩ := bind_ok h
    obtain ⟨rfl, rfl⟩ := mkGoal_ok hg
    obtain ⟨rfl, rfl⟩ := mkClause_ok h₁
    exact ⟨fun side => by cases side <;> rfl, _, _, rfl⟩
  refine (makes (fun h => hgoal h) fun h => hgoal h).mono ?_
  rintro _ _ ⟨⟨i, j, rfl⟩, i', j', rfl⟩
  have hproper {i j : Nat} {q : Term .bool} {p : Constr} (hp : p.Proper) :
      (Constr.clause i [.goal j name q tid] [p]).Proper :=
    Constr.proper_clause (fun d hd => List.mem_singleton.mp hd ▸ Constr.proper_goal j name q tid)
      fun d hd => List.mem_singleton.mp hd ▸ hp
  have hsay {i j : Nat} {q : Term .bool} {p : Constr} (m : Model) :
      D.mirror.passes (.clause i [.goal j name q tid] [p]) m = (!q.holds m || D.mirror.passes p m) := by
    rw [Mirror.passes, Constr.holds_spare_clause]
    simp [Constr.holds, Mirror.passes]
  exact hc.guarded hproper hproper hsay (fun m => by rw [hsay, Bool.true_and])
    fun _ _ _ _ => rfl

/-- The effect of a call under a rule that may be chosen. -/
theorem summarize (hD : D.Fair) {rule : CallRule} (hr : rule ∈ usual) {callee : Sub}
    (hcallee : callee.name ∈ D.callees) (tid : String) (hc : D.Pair c c') :
    D.Abreast D.Pair (Walk.summarize .orig rule callee c tid) (Walk.summarize .mod rule callee c' tid) := by
  have hwide := Arch.wide _ hD.known_arch
  obtain ⟨-, -, hgprs, hinputs, -⟩ := Arch.registers_spec _ hD.known_arch
  refine env fun e e' hf => ?_
  rw [(hf.arch hD).1, (hf.arch hD).2]
  simp only [usual, List.mem_cons, List.not_mem_nil, or_false] at hr
  rcases hr with rfl | rfl | rfl | rfl
  · exact (firstArg hD).bind fun t t' _ => (lift fun _ _ _ _ => True.intro).bind fun p p' _ => assumed hc
  · exact (getCalled hD _).bind fun p p' hp =>
      replaceAll (.cons hp .nil) (List.nodup_singleton _) hc
  · refine env fun e e' hf => ?_
    rw [summary_eq, summary_eq, Env.inputRegs, Env.inputRegs, (hf.arch hD).1, (hf.arch hD).2,
      hf.orig.useInputRegs, hf.mod.useInputRegs, hD.useInputRegs]
    refine (summaryPairs hD hcallee fun v hv => ?_).bind fun ps ps' hps =>
      replaceAll hps (keys_nodup hD) hc
    split at hv
    · exact ⟨hinputs hv, hwide v (List.mem_append_left _ (List.mem_append_right _ hv))⟩
    · exact ⟨hgprs hv, hwide v (List.mem_append_left _ (List.mem_append_left _ hv))⟩
  · exact (returnEffects hD callee).bind fun ps ps' hps =>
      replaceAll hps (List.nodup_append.mp (keys_nodup hD)).2.1 hc

end Abreast

end Duo

end Precond
