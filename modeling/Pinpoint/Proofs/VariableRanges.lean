/-
The ranges of free variables.

Rewritten hypotheses and metavariables have free variables of their own.  The
former are numbered from the first number above the hypotheses that a proof
begins with, the latter from `2 ^ 40` up, and nothing keeps the first numbers
out of the range of the second.

* `CountsFrom` — the variables of rewritten hypotheses have one number after the
  other;
* `CountsFrom.of_becomes` — so they have after any replacements of statements;
* `new_variables_apart_iff` — a new variable is not that of a hypothesis, old or
  rewritten; and all are apart from the metavariables exactly as long as their
  numbers have not reached the range of these.
-/
import Mathlib.Logic.Relation
import Pinpoint.Proofs.Locality

namespace Pinpoint

namespace ProofState

/-- The free variables of rewritten hypotheses, in the order in which they were
created. -/
def created (st : ProofState) : List FVarId := st.hypValues.map Prod.fst

/-- Whether a proof state is another one with a statement replaced. -/
def Replaced (st st' : ProofState) : Prop :=
  ∃ site eq, (st.replace site eq).run = some (.ok st')

/-- Whether a proof state is another one with statements replaced one after the
other. -/
abbrev Becomes : ProofState → ProofState → Prop := Relation.ReflTransGen Replaced

/-- Whether the variables of rewritten hypotheses have the numbers from `n` up,
in order, and the next one goes on with them. -/
structure CountsFrom (n : Nat) (st : ProofState) : Prop where
  next : st.nextFVar = .ofNat (n + st.created.length)
  created : st.created = (List.range st.created.length).map fun k => ⟨.ofNat (n + k)⟩

variable {n : Nat} {env : Environment} {target : Expr} {hyps : List Hypothesis}
  {st st' : ProofState} {eq : Equation} {x : FVarId}

theorem created_of_replaceHyp (h : (st.replaceHyp x eq).run = some (.ok st')) :
    st'.created = st.created ++ [⟨st.nextFVar⟩] ∧ st'.nextFVar = st.nextFVar + 1 := by
  obtain ⟨_, _, new, v, -, -, hrep⟩ := hypReplaced_of_replaceHyp h
  refine ⟨?_, hrep.nextFVar⟩
  rw [created, hrep.hypValues, List.map_append, ← hrep.fvar]
  exact Eq.refl _

/-! ### Replacements -/

theorem CountsFrom.start (env : Environment) (target : Expr) (hyps : List Hypothesis) :
    CountsFrom (start env target hyps).nextFVar.toNat (.start env target hyps) :=
  ⟨UInt64.ofNat_toNat.symm, Eq.refl _⟩

/-- A rewritten hypothesis takes the next number, and a new target none. -/
theorem CountsFrom.replace (hst : st.CountsFrom n) (h : st.Replaced st') : st'.CountsFrom n := by
  obtain ⟨site, eq, h⟩ := h
  cases site with
  | goal =>
    obtain ⟨_, _, hrep⟩ := targetReplaced_of_replaceTarget h
    have hcreated : st'.created = st.created := congrArg (List.map Prod.fst) hrep.hypValues
    exact ⟨by rw [hrep.nextFVar, hcreated, hst.next], by rw [hcreated, ← hst.created]⟩
  | hyp x =>
    obtain ⟨hcreated, hnext⟩ := created_of_replaceHyp h
    have hlen : st'.created.length = st.created.length + 1 := by simp [hcreated]
    constructor
    · rw [hnext, hlen, hst.next, ← Nat.add_assoc]
      exact (UInt64.ofNat_add _ 1).symm
    · rw [hlen, List.range_succ, List.map_append, ← hst.created, hcreated, hst.next]
      exact Eq.refl _

theorem CountsFrom.of_becomes (hst : st.CountsFrom n) (h : st.Becomes st') : st'.CountsFrom n := by
  induction h with
  | refl => exact hst
  | tail _ hstep ih => exact ih.replace hstep

/-- Hypotheses are those that the proof began with, or have a variable that was
created for them. -/
theorem Becomes.recorded (h : (start env target hyps).Becomes st) : st.Recorded hyps := by
  induction h with
  | refl =>
    intro g hg h hh
    obtain rfl := List.mem_singleton.mp hg
    exact .inl hh
  | tail _ hstep ih =>
    obtain ⟨site, eq, hstep⟩ := hstep
    exact ih.replace hstep

/-- Replacements take no metavariables back. -/
theorem Becomes.length_metas_le (h : st.Becomes st') :
    st.metas.metas.length ≤ st'.metas.metas.length := by
  induction h with
  | refl => exact Nat.le_refl _
  | tail _ hstep ih =>
    obtain ⟨site, eq, hstep⟩ := hstep
    exact Nat.le_trans ih (length_le_of_replace hstep).2

/-! ### New variables -/

/-- The largest of numbers is one of them. -/
theorem foldl_max_mem (l : List UInt64) (b : UInt64) : l.foldl max b = b ∨ l.foldl max b ∈ l := by
  induction l generalizing b with
  | nil => exact .inl (Eq.refl b)
  | cons c l ih =>
    rw [List.foldl_cons]
    have hmax : max b c = c ∨ max b c = b := ite_eq_or_eq (b ≤ c) c b
    -- of two numbers the larger one is one, and goes on with the rest
    rcases ih (max b c) with hb | hl
    · rw [hb]
      exact hmax.symm.imp_right fun hc => List.mem_cons.mpr (.inl hc)
    · exact .inr (List.mem_cons_of_mem c hl)

/-- The counter begins in front of the metavariables, if the hypotheses do not reach
into their range. -/
theorem nextFVar_start_le (hids : ∀ h ∈ hyps, MetaId.ofFVar? h.fvar = none) :
    (start env target hyps).nextFVar.toNat ≤ 2 ^ 40 := by
  -- the counter begins at `0` or behind one of the hypotheses
  rcases foldl_max_mem (hyps.map fun h => h.fvar.id + 1) 0 with hzero | hmem
  · show UInt64.toNat (List.foldl max 0 _) ≤ _
    rw [hzero]
    exact Nat.zero_le _
  · obtain ⟨h, hh, hid⟩ := List.mem_map.mp hmem
    have hlt := MetaId.lt_of_ofFVar?_eq_none (hids h hh)
    show UInt64.toNat (List.foldl max 0 _) ≤ _
    rw [← hid, Supply.toNat_add_one (by omega)]
    omega

section
variable (hst : st.CountsFrom n) (hroom : n + st.created.length < 2 ^ 64)
include hst hroom

theorem CountsFrom.toNat_next : st.nextFVar.toNat = n + st.created.length := by
  rw [hst.next]
  exact UInt64.toNat_ofNat_of_lt' hroom

/-- While numbers last, the variables of rewritten hypotheses are those with the
numbers from `n` up to the next one. -/
theorem CountsFrom.mem_created_iff :
    x ∈ st.created ↔ n ≤ x.id.toNat ∧ x.id.toNat < n + st.created.length := by
  have htoNat : ∀ k < st.created.length, (UInt64.ofNat (n + k)).toNat = n + k :=
    fun k hk => UInt64.toNat_ofNat_of_lt' (show n + k < 2 ^ 64 by omega)
  constructor
  · intro hx
    rw [hst.created] at hx
    obtain ⟨k, hk, rfl⟩ := List.mem_map.mp hx
    have hk := List.mem_range.mp hk
    have hid := htoNat k hk
    dsimp only
    omega
  · rintro ⟨hle, hlt⟩
    rw [hst.created]
    refine List.mem_map.mpr ⟨x.id.toNat - n, List.mem_range.mpr (by omega), ?_⟩
    refine congrArg FVarId.mk (UInt64.toNat_inj.mp ?_)
    rw [htoNat _ (by omega)]
    omega

end

/-- The variable that is created for a rewritten hypothesis is not that of a
hypothesis that the proof began with, of a hypothesis that there is, or of another
rewritten hypothesis.  All that were created stay apart from the metavariables as
long as their numbers lie before those of the metavariables, and no longer: the
next number is that of the first metavariable. -/
theorem new_variables_apart_iff (hids : ∀ h ∈ hyps, MetaId.ofFVar? h.fvar = none)
    (hrun : (start env target hyps).Becomes st)
    (hroom : (start env target hyps).nextFVar.toNat + st.created.length < 2 ^ 64)
    (hmetas : 2 ^ 40 + st.metas.metas.length ≤ 2 ^ 64) :
    (∀ x eq st', (st.replaceHyp x eq).run = some (.ok st') →
      ∃ new : FVarId, st'.created = st.created ++ [new] ∧ (∀ h ∈ hyps, new ≠ h.fvar) ∧
        (∀ g ∈ st.goals, ∀ h ∈ g.hyps, new ≠ h.fvar) ∧ new ∉ st.created) ∧
      ((∀ x ∈ st.created, ∀ m w, st.metas.get? m = some w → x ≠ m.toFVar) ↔
        (start env target hyps).nextFVar.toNat + st.created.length ≤ 2 ^ 40) := by
  have hst : st.CountsFrom _ := (CountsFrom.start env target hyps).of_becomes hrun
  have hmem : ∀ x, x ∈ st.created ↔ _ := fun x => hst.mem_created_iff hroom
  constructor
  · intro x eq st' hnew
    have hid := hst.toNat_next hroom
    -- all hypotheses have smaller numbers, those that were rewritten too
    have hgiven : ∀ h ∈ hyps, (⟨st.nextFVar⟩ : FVarId) ≠ h.fvar := by
      intro h hh heq
      have hlt : h.fvar.id.toNat < (start env target hyps).nextFVar.toNat :=
        lt_nextFVar_start hh (MetaId.lt_of_ofFVar?_eq_none (hids h hh))
      rw [← heq, hid] at hlt
      omega
    have hcreated : (⟨st.nextFVar⟩ : FVarId) ∉ st.created := by
      rw [hmem, hid]
      omega
    -- a hypothesis of a context is one of these two kinds
    refine ⟨⟨st.nextFVar⟩, (created_of_replaceHyp hnew).1, hgiven, ?_, hcreated⟩
    intro g hg h hh heq
    rcases hrun.recorded g hg h hh with hmem | ⟨v, -, hmem⟩
    · exact hgiven h hmem heq
    · exact hcreated (heq ▸ List.mem_map_of_mem hmem)
  · constructor
    · intro hapart
      by_contra hfull
      -- the number of the first metavariable has been given away
      have hfirst : 0 < st.metas.metas.length := hrun.length_metas_le
      have hbegin : (start env target hyps).nextFVar.toNat ≤ 2 ^ 40 := nextFVar_start_le hids
      have hbase : (MetaId.toFVar ⟨0⟩).id.toNat = 2 ^ 40 := Eq.refl _
      exact hapart (MetaId.toFVar ⟨0⟩) ((hmem _).mpr (by omega)) ⟨0⟩ _
        (List.getElem?_eq_getElem hfirst) (Eq.refl _)
    · rintro hroom' x hx m w hw rfl
      have hlt := (hmem _).mp hx
      have hhas := (MetaContext.has_iff hmetas).mp (MetaContext.has_toFVar hw)
      omega

namespace RangeExample

/-- A proposition. -/
def prop (n : String) : Expr := .const (.simple n) []

/-- An equation between two propositions, with a proof. -/
def equation (lhs rhs : String) : Equation :=
  ⟨.one, .prop, prop lhs, prop rhs, .const (.simple "e") []⟩

/-- The last number before those of the metavariables, `2 ^ 40 - 1`. -/
def last : UInt64 := 0xFFFFFFFFFF

/-- A proof from one hypothesis. -/
def begun (id : UInt64) : ProofState :=
  start ⟨Prelude.constants⟩ (prop "G") [⟨⟨id⟩, "h", prop "p", none⟩]

/-- A step from an old hypothesis to a new one. -/
def cast (id : UInt64) (lhs rhs : String) : Expr :=
  .mkApp (.const Vocabulary.eqMp [.zero])
    [prop lhs, prop rhs, (equation lhs rhs).proof, .fvar ⟨id⟩]

/-- The proof with the hypothesis rewritten. -/
def rewritten (id : UInt64) : ProofState where
  env := ⟨Prelude.constants⟩
  goals := [⟨⟨0⟩, prop "G", [⟨⟨id + 1⟩, "h", prop "q", some (cast id "p" "q")⟩]⟩]
  metas := MetaContext.empty.push (prop "G")
  nextFVar := id + 2
  hypValues := [(⟨id + 1⟩, cast id "p" "q")]

theorem becomes_rewritten : (begun 0).Becomes (rewritten 0) :=
  .single ⟨.hyp ⟨0⟩, equation "p" "q", Eq.refl _⟩

end RangeExample

open RangeExample in
/-- A hypothesis is rewritten twice. -/
theorem new_variables_apart_twice :
    ∃ st', ((rewritten 0).replaceHyp ⟨1⟩ (equation "q" "r")).run = some (.ok st') ∧
      (∃ new, st'.created = [⟨1⟩, new] ∧ new ≠ ⟨0⟩ ∧ new ∉ (rewritten 0).created) ∧
      ∀ m w, (rewritten 0).metas.get? m = some w → (⟨1⟩ : FVarId) ≠ m.toFVar := by
  have hids : ∀ h ∈ [(⟨⟨0⟩, "h", prop "p", none⟩ : Hypothesis)], MetaId.ofFVar? h.fvar = none := by
    decide
  obtain ⟨hnew, hapart⟩ :=
    new_variables_apart_iff hids becomes_rewritten (by decide) (by decide)
  obtain ⟨new, hcreated, hgiven, -, hfresh⟩ := hnew ⟨1⟩ (equation "q" "r") _ (Eq.refl _)
  exact ⟨_, Eq.refl _, ⟨new, hcreated, hgiven _ List.mem_cons_self, hfresh⟩,
    hapart.mpr (by decide) ⟨1⟩ List.mem_cons_self⟩

open RangeExample in
/-- A hypothesis whose variable stands for no metavariable is rewritten, and the new
variable is that of the goal's metavariable. -/
theorem new_variable_of_metavariable :
    MetaId.ofFVar? ⟨last⟩ = none ∧
      ((begun last).replaceHyp ⟨last⟩ (equation "p" "q")).run = some (.ok (rewritten last)) ∧
      MetaId.toFVar ⟨0⟩ ∈ (rewritten last).created ∧
      (rewritten last).metas.get? ⟨0⟩ = some ⟨prop "G", none⟩ :=
  ⟨by decide, Eq.refl _, by decide, Eq.refl _⟩

end ProofState

end Pinpoint
