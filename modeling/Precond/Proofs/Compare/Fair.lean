import Precond.Proofs.Compare.Self

/-! A program compared with itself is treated fairly: what the first program takes for granted is what
the second one has to establish, and no constant belongs to both (`Analysis.fair`, `Analysis.owns_apart`).
The constants of the first program have the names of its variables, and those of the second one are told
apart by a name in front. -/

namespace Precond

open IR Walk

/-- No register is named like a constant that a comparison makes. -/
theorem IR.Arch.register_names : ∀ a ∈ Arch.all, ∀ r ∈ a.registers, '_' ∉ r.name.toList ∧
    CallRule.startsWith "mod." r.name = false ∧ ∃ c ∈ r.name.toList, c.isDigit = false := by
  have hall : (Arch.all.all fun a => a.registers.all fun r => !r.name.toList.contains '_' &&
      (!CallRule.startsWith "mod." r.name && r.name.toList.any fun c => !c.isDigit)) = true := by
    decide +kernel
  simp only [List.all_eq_true, Bool.and_eq_true, Bool.not_eq_true', List.any_eq_true] at hall
  intro a ha r hr
  obtain ⟨hsep, hstart, hdigit⟩ := hall a ha r hr
  exact ⟨fun h => Bool.false_ne_true (hsep.symm.trans (List.contains_iff_mem.mpr h)), hstart, hdigit⟩

/-- No part of the subroutine is unknown and no callee gives an unknown result, so that its walk draws
no names; and its variables are not named like the constants of the second program or like results of
its callees. -/
structure Comparable (p : Program) (f : Sub) : Prop where
  arch : p.arch ∈ Arch.all
  known : ∀ b ∈ f.blks, ∀ e ∈ b.elts, e.known
  determined : ∀ n ∈ PairRel.callees (Env.start p.arch p.subs) f,
    ¬ CallRule.startsWith CallRule.nondetFront n
  apart : ∀ v ∈ f.vars, ¬ CallRule.startsWith "mod." v.name
  free : ∀ v ∈ f.vars, ∀ n ∈ PairRel.callees (Env.start p.arch p.subs) f,
    ∀ r ∈ p.arch.callerSaved, v.name ≠ n ++ "_" ++ r.name

namespace Duo

variable {D : Duo} {n : String} {t : TSort}

/-- The first program owns the names of variables and of flags. -/
theorem owns_plain {side : Side} (hf : (D.base side).freshen = false) (h : D.mirror.Owns side n t) :
    (∃ v, (D.base side).vars.lookup v ≠ none ∧ n = v.name) ∨ t = .bool ∧ ∃ g, n = calledFront ++ g := by
  cases h with
  | var hv =>
    obtain ⟨_, _, ht, -, hg⟩ := (D.tidy side).vars hv
    cases ht
    rw [Env.Gave, hf, if_neg Bool.false_ne_true] at hg
    exact .inl ⟨_, Option.ne_none_iff_exists'.mpr ⟨_, hv⟩, hg⟩
  | flag hn =>
    obtain ⟨g, e, hgives, hg⟩ := hn
    rw [Env.Gave, hgives.freshen, hf, if_neg Bool.false_ne_true] at hg
    exact .inr ⟨rfl, g, hg⟩

/-- The second program owns names of its name space. -/
theorem owns_fresh {side : Side} {space : String} (hs : space ≠ "") (hf : (D.base side).freshen = true)
    (hspace : (D.base side).names.space = some space) (h : D.mirror.Owns side n t) :
    ∃ x k, n = space ++ "." ++ (x ++ "_" ++ Nat.repr k) := by
  have hgave {e : Env} {name : String} (hgives : (D.base side).Gives e) (hg : e.Gave name n) :
      ∃ x k, n = space ++ "." ++ (x ++ "_" ++ Nat.repr k) := by
    rw [Env.Gave, hgives.freshen, hf, if_pos rfl] at hg
    obtain ⟨k, -, rfl⟩ := hg
    have hsp : e.names.space = some space := hgives.space.trans hspace
    refine ⟨name, k, ?_⟩
    unfold NameSupply.numbered NameSupply.fresh
    dsimp only
    rw [hsp]
    split
    · rename_i h
      cases h
    · rename_i h
      exact absurd (Option.some.inj h) hs
    · rename_i h
      cases h
      rfl
  cases h with
  | var hv =>
    obtain ⟨_, _, ht, -, hg⟩ := (D.tidy side).vars hv
    cases ht
    exact hgave (.refl _) hg
  | flag hn =>
    obtain ⟨g, e, hgives, hg⟩ := hn
    exact hgave hgives hg

end Duo

namespace Analysis

open Compare

variable {p : Program} {o : Options} {f : Sub} {cmps : List Comparator}
  {op : Opening cmps f f (plainStart p o)} {hr : ∀ cmp ∈ cmps, cmp.Reads fun _ => False}
  {hw : Matched (plainStart p o)} {preMod : Constr} {spared : String → Bool}

theorem sideRules_orig (o : Options) : ∀ r ∈ sideRules o .orig, r.isLocal ∧ r.trusts := by
  unfold sideRules
  cases o.checkNullDerefs <;> cases o.checkInvalidDerefs <;> cases o.checkDivByZero <;> decide

theorem sideRules_mod (o : Options) : (∀ r ∈ sideRules o .mod, r.isLocal) ∧
    (.nonZeroDivisor ∈ sideRules o .mod ↔ o.checkDivByZero = true) := by
  unfold sideRules
  cases o.checkNullDerefs <;> cases o.checkInvalidDerefs <;> cases o.checkDivByZero <;> decide

/-- What the second program has to establish, the first one takes for granted. -/
theorem sideRules_counterpart (o : Options) (access : Access) :
    (.nonNull access .verify ∈ sideRules o .mod → .nonNull access .assume ∈ sideRules o .orig) ∧
      (.validAccess access .verify ∈ sideRules o .mod →
        .validAccess access .assume ∈ sideRules o .orig) := by
  unfold sideRules
  cases access <;> cases o.checkNullDerefs <;> cases o.checkInvalidDerefs <;>
    cases o.checkDivByZero <;> decide

/-- The goals that are not proved: those about divisors, if they are checked. -/
def sparing (o : Options) (name : String) : Bool := o.checkDivByZero && isDivisorGoal name

/-- The policies are those of the start. -/
theorem policies (hw : Matched (plainStart p o)) (hat : op.scene.At op.start) :
    (∃ names vars inits called,
      op.start.env .orig = { plainEnv p o .orig with names, vars, inits, called }) ∧
    ∃ names vars inits called,
      op.start.env .mod = { plainEnv p o .mod with names, vars, inits, called } :=
  ⟨(op.ready hw hat .orig).env, (op.ready hw hat .mod).env⟩

/-- Variables that have constants are those of the subroutine and the registers. -/
theorem bound_iff (hw : Matched (plainStart p o)) (hat : op.scene.At op.start) (side : Side) (v : Var) :
    (op.start.env side).vars.lookup v ≠ none ↔ v ∈ f.vars ∨ v ∈ p.arch.registers := by
  rw [(op.ready hw hat side).bound, varsOf, List.mem_eraseDups, List.mem_append]
  rfl

theorem callees_eq (hw : Matched (plainStart p o)) (hat : op.scene.At op.start) :
    (op.duo hr hw spared preMod).callees = PairRel.callees (Env.start p.arch p.subs) f := by
  obtain ⟨⟨_, _, _, _, he⟩, -⟩ := policies hw hat
  exact PairRel.callees_congr (by rw [show (op.duo hr hw spared preMod).base = op.start.env from rfl, he]; rfl)
    (by rw [show (op.duo hr hw spared preMod).base = op.start.env from rfl, he]; rfl)

/-- The names that the first program owns. -/
theorem owns_orig (hat : op.scene.At op.start) {n : String} {t : TSort}
    (h : (op.duo hr hw spared preMod).mirror.Owns .orig n t) :
    (∃ v, (v ∈ f.vars ∨ v ∈ p.arch.registers) ∧ n = v.name) ∨ t = .bool ∧ ∃ g, n = calledFront ++ g := by
  obtain ⟨⟨_, _, _, _, he⟩, -⟩ := policies hw hat
  have hfresh : (op.start.env .orig).freshen = false := by rw [he]; rfl
  refine (Duo.owns_plain hfresh h).imp_left ?_
  rintro ⟨v, hv, hn⟩
  exact ⟨v, (bound_iff hw hat .orig v).mp hv, hn⟩

/-- The names that the second program owns. -/
theorem owns_mod (hat : op.scene.At op.start) {n : String} {t : TSort}
    (h : (op.duo hr hw spared preMod).mirror.Owns .mod n t) :
    ∃ x k, n = "mod." ++ (x ++ "_" ++ Nat.repr k) := by
  obtain ⟨-, _, _, _, _, he⟩ := policies hw hat
  obtain ⟨_, _, _, hb, hb', hb'', -⟩ := op.built hr
  have hfresh : (op.start.env .mod).freshen = true := by rw [he]; rfl
  have hspace : (op.start.env .mod).names.space = some modSpace :=
    (((hb.trans hb').trans hb'').later .mod).gives.space
  exact Duo.owns_fresh (by decide : modSpace ≠ "") hfresh hspace h

/-- Results of callees belong to neither program. -/
theorem free_results (hf : Comparable p f) (hat : op.scene.At op.start) {n : String} {r : Var}
    {t : TSort} (hn : n ∈ PairRel.callees (Env.start p.arch p.subs) f) (hr' : r ∈ p.arch.callerSaved)
    (ht : r.type.sort = .ok t) (side : Side) :
    ¬ (op.duo hr hw spared preMod).mirror.Owns side (n ++ "_" ++ r.name) t := by
  intro ho
  obtain ⟨-, -, -, -, hsub⟩ := Arch.registers_spec _ hf.arch
  obtain ⟨hsep, -, c, hc, hdigit⟩ := Arch.register_names _ hf.arch r (hsub hr')
  have hlist (x : String) : (n ++ "_" ++ x).toList = n.toList ++ '_' :: x.toList := by
    rw [String.toList_append, String.toList_append, List.append_assoc]
    rfl
  cases side with
  | orig =>
    obtain ⟨v, hv, he⟩ | ⟨rfl, -⟩ := owns_orig hat ho
    · rcases hv with hv | hv
      · exact hf.free v hv n hn r hr' he.symm
      · refine (Arch.register_names _ hf.arch v hv).1 ?_
        rw [← he, hlist]
        exact List.mem_append_right _ List.mem_cons_self
    · exact Ty.sort_ne_bool ht rfl
  | mod =>
    -- what follows the last separator is a number in one name and a register in the other
    obtain ⟨x, k, he⟩ := owns_mod hat ho
    have hl := congrArg String.toList he
    have hk : ("mod." ++ (x ++ "_" ++ Nat.repr k)).toList =
        ("mod.".toList ++ x.toList) ++ '_' :: (Nat.repr k).toList := by
      rw [String.toList_append, String.toList_append, String.toList_append, List.append_assoc,
        List.append_assoc]
      rfl
    rw [hlist, hk] at hl
    have hrepr := append_sep_inj hsep (not_mem_repr k) hl
    rw [hrepr, Nat.toList_repr] at hc
    exact Bool.false_ne_true (hdigit.symm.trans (Nat.isDigit_of_mem_toDigits (by decide) (by decide) hc))

theorem fair (hf : Comparable p f) (hat : op.scene.At op.start) :
    (op.duo hr hw (sparing o) preMod).Fair := by
  obtain ⟨⟨_, _, _, _, he⟩, _, _, _, _, he'⟩ := policies hw hat
  have hall (P : Env → Prop) (h : ∀ role names vars inits called,
      P { plainEnv p o role with names, vars, inits, called }) (side : Side) : P (op.start.env side) := by
    cases side with
    | orig => exact he ▸ h ..
    | mod => exact he' ▸ h ..
  have hbase (side : Side) : (op.duo hr hw (sparing o) preMod).base side = op.start.env side := rfl
  have harch : (op.duo hr hw (sparing o) preMod).arch = p.arch := by
    rw [Duo.arch, hbase, he]
    rfl
  have horig : (op.start.env .orig).sideRules = sideRules o .orig := by rw [he]; rfl
  have hmod : (op.start.env .mod).sideRules = sideRules o .mod := by rw [he']; rfl
  have hcallees : (op.duo hr hw (sparing o) preMod).callees =
      PairRel.callees (Env.start p.arch p.subs) f := callees_eq hw hat
  exact {
    known_arch := harch ▸ hf.arch
    arch := by rw [harch, hbase, he']; rfl
    subs := by rw [hbase, hbase, he, he']; rfl
    rules := hall (·.rules = _) fun _ _ _ _ _ => rfl
    fallback := hall (·.fallback = _) fun _ _ _ _ _ => rfl
    reach := hall (·.reach = _) fun _ _ _ _ _ => rfl
    renames := hall (·.renames = _) fun _ _ _ _ _ => rfl
    unrollBound := by rw [hbase, hbase, he, he']; rfl
    useInputRegs := by rw [hbase, hbase, he, he']; rfl
    stack := by rw [hbase, hbase, he, he']; rfl
    heap := by rw [hbase, hbase, he, he']; rfl
    isLocal := fun side => by
      cases side with
      | orig => exact fun r hr => (sideRules_orig o r (horig ▸ hr)).1
      | mod => exact fun r hr => (sideRules_mod o).1 r (hmod ▸ hr)
    trusts := fun r hr => (sideRules_orig o r (horig ▸ hr)).2
    nonNull := by rw [hbase, hbase, horig, hmod]; exact (sideRules_counterpart o _).1
    validAccess := by rw [hbase, hbase, horig, hmod]; exact (sideRules_counterpart o _).2
    spares := by
      rw [hbase, hmod]
      cases hdiv : o.checkDivByZero with
      | true => exact .inl (funext fun name => by show sparing o name = _; rw [sparing, hdiv, Bool.true_and])
      | false =>
        refine .inr ⟨fun h => ?_, fun name => by show sparing o name = _; rw [sparing, hdiv, Bool.false_and]⟩
        exact Bool.false_ne_true (hdiv.symm.trans ((sideRules_mod o).2.mp h))
    bound := fun {v} hv => by
      rw [Duo.Shared, harch] at hv
      obtain ⟨t, ht⟩ := Option.ne_none_iff_exists'.mp ((bound_iff hw hat .orig v).mpr hv)
      obtain ⟨t', ht'⟩ := Option.ne_none_iff_exists'.mp ((bound_iff hw hat .mod v).mpr hv)
      exact ⟨t, t', ht, ht'⟩
    known := fun hb he => hf.known _ hb _ he
    determined := fun hn => hf.determined _ (hcallees ▸ hn)
    free := fun hn hr => free_results hf hat (hcallees ▸ hn) (harch ▸ hr) }

/-- No constant belongs to both programs. -/
theorem owns_apart (hf : Comparable p f) (hat : op.scene.At op.start) (n : String) (t : TSort)
    (ho : (op.duo hr hw spared preMod).mirror.Owns .orig n t) :
    ¬ (op.duo hr hw spared preMod).mirror.Owns .mod n t := by
  intro hm
  obtain ⟨x, k, hn⟩ := owns_mod hat hm
  have hstart : CallRule.startsWith "mod." n = true := hn ▸ startsWith_append ..
  obtain ⟨v, hv, rfl⟩ | ⟨-, g, rfl⟩ := owns_orig hat ho
  · rcases hv with hv | hv
    · exact hf.apart v hv hstart
    · exact Bool.false_ne_true ((Arch.register_names _ hf.arch v hv).2.1.symm.trans hstart)
  · have hhead := congrArg (fun s : String => s.toList.head?) hn
    simp [String.toList_append, calledFront] at hhead

end Analysis

end Precond
