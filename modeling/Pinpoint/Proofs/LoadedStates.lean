/-
The states that problems load as.

The three parts of a problem are made to state by three ways, which ask for
different things.  Constants are declared, so their types are checked.  The goal is
asked for its type, which has to be the universe of propositions.  A hypothesis is
elaborated and nothing else: its type is what its text means among the hypotheses
before it, and mentions these only, but need not be a type.

* `readHypotheses_eq_ok` — hypotheses are read one after the other;
* `Loaded` — what is known of all parts;
* `loaded_of_toState` — it holds of every state that a problem loads as;
* `toState_of_number_as_hypothesis` — a problem that loads with a number where the
  type of a hypothesis should be.
-/
import Pinpoint.Proofs.GivenGoals
import Pinpoint.Proofs.LevelInstances
import Pinpoint.Proofs.Loading
import Pinpoint.Proofs.TypedStarts

namespace Pinpoint

namespace Elaboration

open ElabM

variable {env : Environment} {fuel : Nat} {Γ : LocalContext} {t : Surface.Term} {e : Expr}

/-- A term that has to be a proposition has a type that reduces to the universe of
propositions. -/
theorem runFresh_elaborateProp_eq_ok :
    runFresh (elaborateProp env fuel Γ t) = some (.ok e) ↔
      runFresh (elaborate env fuel Γ t) = some (.ok e) ∧
        ∃ T W, (Checker.inferType ⟨env, Γ, fuel⟩ e).runFresh = some (.ok T) ∧
          env.whnf .all fuel T = some W ∧ W.isProp := by
  simp only [runFresh_eq_ok, CheckM.runFresh_eq_ok, elaborateProp, inferType, returns_bind,
    returns_ofCheck, returns_lift]
  constructor
  · rintro ⟨u, e', s, he, T, s', ⟨hT, rfl⟩, W, s'', ⟨hW, rfl⟩, hlast⟩
    by_cases hprop : W.isProp
    · rw [if_pos hprop] at hlast
      obtain ⟨rfl, rfl⟩ := returns_pure.mp hlast
      exact ⟨⟨_, he⟩, T, W, hT, hW, hprop⟩
    · rw [if_neg hprop] at hlast
      exact absurd hlast not_returns_throw
  · rintro ⟨⟨s, he⟩, T, W, hT, hW, hprop⟩
    refine ⟨s, e, s, he, T, s, ⟨hT, rfl⟩, W, s, ⟨hW, rfl⟩, ?_⟩
    rw [if_pos hprop]
    exact returns_pure.mpr ⟨rfl, rfl⟩

end Elaboration

/-- What is found to be a proposition is a type. -/
theorem Checker.ensureSort_of_isProp {env : Environment} {fuel : Nat} {Γ : LocalContext}
    {e T W : Expr} (hT : (Checker.inferType ⟨env, Γ, fuel⟩ e).runFresh = some (.ok T))
    (hW : env.whnf .all fuel T = some W) (hprop : W.isProp) :
    ∃ l, (Checker.ensureSort ⟨env, Γ, fuel⟩ e).runFresh = some (.ok l) := by
  obtain ⟨t, hT⟩ := CheckM.runFresh_eq_ok.mp hT
  cases W with
  | sort l =>
    exact ⟨l, CheckM.runFresh_eq_ok.mpr ⟨t, CheckM.returns_bind.mpr ⟨T, t, hT,
      Environment.sortOfType_returns_iff.mpr ⟨hW, rfl⟩⟩⟩⟩
  | _ => cases hprop

/-- A constant without a value, and with a closed type, brings in no free variable. -/
theorem Environment.FVarFree.push {env : Environment} {c : Constant} (henv : env.FVarFree)
    (htype : c.type.FVarsIn fun _ => False) (hvalue : c.value = none) : (env.push c).FVarFree := by
  intro d hd
  rw [constants_push] at hd
  rcases List.mem_append.mp hd with hd | hd
  · exact henv d hd
  · obtain rfl := List.mem_singleton.mp hd
    exact ⟨htype, by simp [hvalue]⟩

namespace Problem

open QueryM Elaboration

variable {p : Problem} {env env' : Environment} {fuel : Nat} {Γ : LocalContext}
  {items : List ProblemItem} {before hyps : List Hypothesis} {h : Hypothesis} {item : ProblemItem}
  {st : ProofState} {e : Expr}

theorem readPart_eq_ok {part : Part} {text : String} {meaning : Surface.Term → ElabM Expr} :
    (readPart part text meaning).run = some (.ok e) ↔
      ∃ t, Surface.Term.parse text = .ok t ∧ runFresh (meaning t) = some (.ok e) := by
  unfold readPart
  cases Surface.Term.parse text with
  | error err => simp
  | ok t =>
    rw [run_bind_eq_ok]
    constructor
    · rintro ⟨r, hr, hlast⟩
      rw [run_lift_eq_ok] at hr
      cases r with
      | error err => exact absurd hlast not_run_throw_eq_ok
      | ok e' =>
        obtain rfl := run_pure_eq_ok.mp hlast
        exact ⟨t, rfl, hr⟩
    · rintro ⟨t', heq, hr⟩
      obtain rfl := Except.ok.inj heq
      exact ⟨.ok e, run_lift_eq_ok.mpr hr, run_pure_eq_ok.mpr rfl⟩

/-! ### Constants -/

/-- Constants are declared under their names, each with a checked and closed type. -/
theorem listing_of_declareConstants {k k' : Catalogue} (hk : k.InStep)
    (henv : k.listing.ExtendsPrelude) (hfree : k.listing.FVarFree)
    (h : (declareConstants fuel k items).run = some (.ok k')) :
    k'.listing.ExtendsPrelude ∧ k'.listing.FVarFree ∧ k'.constants.map Constant.name =
      k.constants.map Constant.name ++ items.map fun item => .ofString item.name := by
  induction items generalizing k with
  | nil =>
    obtain rfl := run_pure_eq_ok.mp h
    exact ⟨henv, hfree, (List.append_nil _).symm⟩
  | cons item items ih =>
    obtain ⟨type, htype, hrest⟩ := run_bind_eq_ok.mp h
    obtain ⟨r, hr, hrest⟩ := run_bind_eq_ok.mp hrest
    rw [run_lift_eq_ok] at hr
    cases r with
    | error err => exact absurd hrest not_run_throw_eq_ok
    | ok k₁ =>
      obtain ⟨t, -, htype⟩ := readPart_eq_ok.mp htype
      obtain ⟨u, htype⟩ := runFresh_eq_ok.mp htype
      -- there is no variable to mention where a constant is declared
      have hclosed : type.FVarsIn fun _ => False :=
        elaborate_fvarsIn hfree.fvarsIn (Γ := .empty) nofun t htype
      obtain ⟨hdeclare, hk₁, rfl⟩ := Catalogue.outcome_declare_eq_ok hk hr
      obtain ⟨-, hlisting, -⟩ := Environment.declare_eq_ok hdeclare
      obtain ⟨henv', hfree', hnames⟩ := ih hk₁ (henv.declare hdeclare)
        (hlisting ▸ hfree.push hclosed rfl) hrest
      refine ⟨henv', hfree', ?_⟩
      rw [hnames, hk₁.map_name_constants, hk.map_name_constants, List.map_cons]
      exact List.append_assoc ..

theorem environment_eq_ok (h : (p.environment fuel).run = some (.ok env)) :
    env.ExtendsPrelude ∧ env.FVarFree ∧ env.constants.map Constant.name =
      Prelude.constants.map Constant.name ++ p.constants.map fun item => .ofString item.name := by
  obtain ⟨r, hr, h⟩ := run_bind_eq_ok.mp h
  obtain ⟨k, rfl, hk, hlisting⟩ := ofPrelude_eq (run_lift_eq_ok.mp hr)
  obtain ⟨k', hk', hlast⟩ := run_bind_eq_ok.mp h
  obtain rfl := run_pure_eq_ok.mp hlast
  have hconstants : k.constants = Prelude.constants := congrArg Environment.constants hlisting
  have hprelude := listing_of_declareConstants hk
    (hlisting ▸ Environment.extendsPrelude_prelude) (hlisting ▸ Environment.fvarFree_prelude) hk'
  rwa [hconstants] at hprelude

/-! ### Hypotheses -/

/-- What a hypothesis is read as after others: its type is what its text means among
them, and its variable is their number. -/
structure ReadsAs (env : Environment) (fuel : Nat) (before : List Hypothesis) (item : ProblemItem)
    (h : Hypothesis) : Prop where
  fvar : h.fvar = ⟨.ofNat before.length⟩
  name : h.name = item.name
  value : h.value = none
  type : ∃ t, Surface.Term.parse item.type = .ok t ∧
    runFresh (elaborate env fuel (.ofHyps before) t) = some (.ok h.type)

theorem ReadsAs.fvarsIn (hh : ReadsAs env fuel before item h) (hfree : env.FVarFree)
    (hΓ : (LocalContext.ofHyps before).FVarsIn (IsHyp before)) : h.type.FVarsIn (IsHyp before) := by
  obtain ⟨t, -, htype⟩ := hh.type
  obtain ⟨u, htype⟩ := runFresh_eq_ok.mp htype
  exact elaborate_fvarsIn hfree.fvarsIn hΓ t htype

/-- What hypotheses are read as, one after the other, after others. -/
inductive ReadInOrder (env : Environment) (fuel : Nat) :
    List Hypothesis → List ProblemItem → List Hypothesis → Prop
  | nil {before : List Hypothesis} : ReadInOrder env fuel before [] []
  | cons {before hyps : List Hypothesis} {item : ProblemItem} {items : List ProblemItem}
    {h : Hypothesis} : ReadsAs env fuel before item h →
    ReadInOrder env fuel (before ++ [h]) items hyps →
    ReadInOrder env fuel before (item :: items) (h :: hyps)

/-- Hypotheses are read one after the other, and make up the context of the goal. -/
theorem readHypotheses_eq_ok :
    (readHypotheses fuel env (.ofNat before.length) (.ofHyps before) items).run =
        some (.ok (Γ, hyps)) ↔
      Γ = .ofHyps (before ++ hyps) ∧ ReadInOrder env fuel before items hyps := by
  induction items generalizing before hyps Γ with
  | nil =>
    rw [readHypotheses, run_pure_eq_ok, Prod.mk.injEq]
    constructor
    · rintro ⟨rfl, rfl⟩
      exact ⟨by rw [List.append_nil], .nil⟩
    · rintro ⟨rfl, hread⟩
      cases hread
      exact ⟨by rw [List.append_nil], rfl⟩
  | cons item items ih =>
    -- what is left is read after one more hypothesis
    have hrest : ∀ type Γ' hyps', (readHypotheses fuel env (.ofNat before.length + 1)
        ((LocalContext.ofHyps before).push ⟨.ofNat before.length⟩ (.ofString item.name) type)
        items).run = some (.ok (Γ', hyps')) ↔
        Γ' = .ofHyps (before ++ ⟨⟨.ofNat before.length⟩, item.name, type, none⟩ :: hyps') ∧
          ReadInOrder env fuel (before ++ [⟨⟨.ofNat before.length⟩, item.name, type, none⟩])
            items hyps' := by
      intro type Γ' hyps'
      let h : Hypothesis := ⟨⟨.ofNat before.length⟩, item.name, type, none⟩
      have hnext : UInt64.ofNat before.length + 1 = .ofNat (before ++ [h]).length := by
        rw [List.length_append, List.length_singleton, UInt64.ofNat_add]
        rfl
      rw [hnext, ← LocalContext.ofHyps_snoc before h, ih, List.append_assoc]
      rfl
    rw [readHypotheses, run_bind_eq_ok]
    constructor
    · rintro ⟨type, htype, hmore⟩
      obtain ⟨⟨Γ', hyps'⟩, hitems, hlast⟩ := run_bind_eq_ok.mp hmore
      obtain ⟨rfl, rfl⟩ := Prod.mk.inj (run_pure_eq_ok.mp hlast)
      obtain ⟨rfl, hread⟩ := (hrest type Γ' hyps').mp hitems
      exact ⟨rfl, .cons ⟨rfl, rfl, rfl, readPart_eq_ok.mp htype⟩ hread⟩
    · rintro ⟨rfl, hread⟩
      cases hread with
      | @cons _ hyps' _ _ h hh hread =>
        obtain ⟨fvar, name, type, value⟩ := h
        obtain ⟨rfl, rfl, rfl, htype⟩ := hh
        exact ⟨type, readPart_eq_ok.mpr htype, run_bind_eq_ok.mpr
          ⟨_, (hrest type _ hyps').mpr ⟨rfl, hread⟩, run_pure_eq_ok.mpr rfl⟩⟩

namespace ReadInOrder

theorem length_eq (hread : ReadInOrder env fuel before items hyps) :
    hyps.length = items.length := by
  induction hread with
  | nil => rfl
  | cons _ _ ih => rw [List.length_cons, ih, List.length_cons]

/-- Every hypothesis is read from an item, after those before it. -/
theorem exists_item (hread : ReadInOrder env fuel before items hyps) {i : Nat}
    (hh : hyps[i]? = some h) :
    ∃ item, items[i]? = some item ∧ ReadsAs env fuel (before ++ hyps.take i) item h := by
  induction hread generalizing i with
  | nil => simp at hh
  | cons hfirst _ ih =>
    cases i with
    | zero =>
      obtain rfl := Option.some.inj hh
      exact ⟨_, rfl, by simpa using hfirst⟩
    | succ i => simpa using ih hh

/-- The first hypotheses are read as if they were all. -/
theorem take (hread : ReadInOrder env fuel before items hyps) (i : Nat) :
    ReadInOrder env fuel before (items.take i) (hyps.take i) := by
  induction hread generalizing i with
  | nil => simpa using .nil
  | cons hfirst _ ih =>
    cases i with
    | zero => exact .nil
    | succ i => exact .cons hfirst (ih i)

/-- There is one way to read hypotheses. -/
theorem det {hyps' : List Hypothesis} (hread : ReadInOrder env fuel before items hyps)
    (hread' : ReadInOrder env fuel before items hyps') : hyps = hyps' := by
  have hrun := readHypotheses_eq_ok.mpr ⟨rfl, hread⟩
  have hrun' := readHypotheses_eq_ok.mpr ⟨rfl, hread'⟩
  exact (Prod.mk.inj (Except.ok.inj (Option.some.inj (hrun.symm.trans hrun')))).2

/-- The variables are numbered in order. -/
theorem fvars (hread : ReadInOrder env fuel before items hyps) :
    hyps.map Hypothesis.fvar =
      (List.range' before.length hyps.length).map fun i => ⟨.ofNat i⟩ := by
  induction hread with
  | nil => rfl
  | cons hfirst _ ih =>
    rw [List.length_append, List.length_singleton] at ih
    rw [List.map_cons, ih, hfirst.fvar, List.length_cons, List.range'_succ, List.map_cons]

/-- What is read among hypotheses mentions hypotheses. -/
theorem context (hread : ReadInOrder env fuel [] items hyps) (hfree : env.FVarFree) (i : Nat) :
    (LocalContext.ofHyps (hyps.take i)).FVarsIn (IsHyp (hyps.take i)) := by
  induction i with
  | zero => exact nofun
  | succ i ih =>
    rw [List.take_add_one]
    cases hh : hyps[i]? with
    | none => simpa using ih
    | some h =>
      obtain ⟨item, -, hitem⟩ := hread.exists_item hh
      have htype := hitem.fvarsIn hfree ih
      have hmono : ∀ x, IsHyp (hyps.take i) x → IsHyp (hyps.take i ++ [h]) x :=
        fun x ⟨k, hk, hx⟩ => ⟨k, List.mem_append_left _ hk, hx⟩
      rw [Option.toList_some, LocalContext.ofHyps_snoc]
      exact (ih.mono hmono).push ⟨h, by simp, rfl⟩ _ (htype.mono hmono)

/-- A hypothesis mentions those before it. -/
theorem earlier (hread : ReadInOrder env fuel [] items hyps) (hfree : env.FVarFree) (i : Nat)
    (h : Hypothesis) (hh : hyps[i]? = some h) : h.type.FVarsIn (IsHyp (hyps.take i)) := by
  obtain ⟨item, -, hitem⟩ := hread.exists_item hh
  exact hitem.fvarsIn hfree (hread.context hfree i)

end ReadInOrder

/-! ### States -/

/-- A problem loads as the state in which all of its parts are put together. -/
theorem toState_eq_ok : (p.toState fuel).run = some (.ok st) ↔
    ∃ env hyps target, (p.environment fuel).run = some (.ok env) ∧
      ReadInOrder env fuel [] p.hypotheses hyps ∧
      (readPart .goal p.goal (elaborateProp env fuel (.ofHyps hyps))).run = some (.ok target) ∧
      st = .start env target hyps := by
  rw [toState, run_bind_eq_ok]
  constructor
  · rintro ⟨env, henv, h⟩
    obtain ⟨⟨Γ, hyps⟩, hhyps, h⟩ := run_bind_eq_ok.mp h
    obtain ⟨target, htarget, hlast⟩ := run_bind_eq_ok.mp h
    obtain ⟨rfl, hread⟩ := (@readHypotheses_eq_ok _ _ _ _ []).mp hhyps
    exact ⟨env, hyps, target, henv, hread, htarget, (run_pure_eq_ok.mp hlast).symm⟩
  · rintro ⟨env, hyps, target, henv, hread, htarget, rfl⟩
    exact ⟨env, henv, run_bind_eq_ok.mpr ⟨(.ofHyps hyps, hyps),
      (@readHypotheses_eq_ok _ _ _ _ []).mpr ⟨rfl, hread⟩,
      run_bind_eq_ok.mpr ⟨target, htarget, run_pure_eq_ok.mpr rfl⟩⟩⟩

/-- What is known of the parts of a state that a problem loads as:

* the constants are those of the prelude and of the problem, and the type of each of
  them is accepted as a type;
* the hypotheses are those of the problem, with the variables `0`, `1`, … in order;
  each is what its text means among the hypotheses before it, and mentions only these;
* a hypothesis that would do as the goal in its place is accepted as a type;
* the goal mentions hypotheses only, and has a type among them that reduces to the
  universe of propositions. -/
structure Loaded (p : Problem) (fuel : Nat) (env : Environment) (hyps : List Hypothesis)
    (target : Expr) : Prop where
  names : env.constants.map Constant.name =
    Prelude.constants.map Constant.name ++ p.constants.map fun item => .ofString item.name
  constants : ∀ c ∈ env.constants, ∃ m, ∀ n ≥ m, ∃ l,
    (Checker.ensureSort ⟨env, .empty, n⟩ c.type).runFresh = some (.ok l)
  length : hyps.length = p.hypotheses.length
  ids : hyps.map Hypothesis.fvar = (List.range hyps.length).map fun i => ⟨.ofNat i⟩
  reads : ∀ (i : Nat) (h : Hypothesis), hyps[i]? = some h →
    ∃ item, p.hypotheses[i]? = some item ∧ ReadsAs env fuel (hyps.take i) item h
  earlier : ∀ (i : Nat) (h : Hypothesis), hyps[i]? = some h → h.type.FVarsIn (IsHyp (hyps.take i))
  checked : ∀ (i : Nat) (item : ProblemItem) (h : Hypothesis) (st : ProofState),
    p.hypotheses[i]? = some item → hyps[i]? = some h →
    (toState fuel ⟨p.constants, p.hypotheses.take i, item.type⟩).run = some (.ok st) →
    ∃ l, (Checker.ensureSort ⟨env, .ofHyps (hyps.take i), fuel⟩ h.type).runFresh = some (.ok l)
  scope : target.FVarsIn (IsHyp hyps)
  goal : ∃ T W, (Checker.inferType ⟨env, .ofHyps hyps, fuel⟩ target).runFresh = some (.ok T) ∧
    env.whnf .all fuel T = some W ∧ W.isProp

/-- Every state that a problem loads as is the start of a proof of its goal from its
hypotheses, and they are as they should be, except that nobody asks whether a
hypothesis is a type. -/
theorem loaded_of_toState (hst : (p.toState fuel).run = some (.ok st)) :
    ∃ hyps target, st = .start st.env target hyps ∧ p.Loaded fuel st.env hyps target := by
  obtain ⟨env, hyps, target, henv, hread, htarget, rfl⟩ := toState_eq_ok.mp hst
  obtain ⟨hextends, hfree, hnames⟩ := environment_eq_ok henv
  obtain ⟨t, -, htarget⟩ := readPart_eq_ok.mp htarget
  obtain ⟨hmeaning, hprop⟩ := runFresh_elaborateProp_eq_ok.mp htarget
  refine ⟨hyps, target, rfl, hnames, fun c hc => ?_, hread.length_eq, ?_,
    fun i h => hread.exists_item, hread.earlier hfree,
    fun i item h st' hitem hh hst' => ?_, ?_, hprop⟩
  · obtain ⟨m, hm⟩ := hextends.checked.ensureSort_type hc (.inl rfl)
    exact ⟨m, fun n hn => c.type.instantiateLevels_nil ▸ hm n hn⟩
  · rw [hread.fvars, List.range_eq_range']
    rfl
  · -- the goal of the other problem is the hypothesis, read among the same ones
    obtain ⟨env', hyps', target', henv', hread', htarget', -⟩ := toState_eq_ok.mp hst'
    obtain rfl := Except.ok.inj (Option.some.inj (henv.symm.trans henv'))
    obtain rfl := (hread.take i).det hread'
    obtain ⟨w, hw, htarget'⟩ := readPart_eq_ok.mp htarget'
    obtain ⟨hmeaning', T, W, hT, hW, hprop'⟩ := runFresh_elaborateProp_eq_ok.mp htarget'
    obtain ⟨item', hitem', hreads⟩ := hread.exists_item hh
    obtain rfl := Option.some.inj (hitem.symm.trans hitem')
    obtain ⟨w', hw', htype⟩ := hreads.type
    obtain rfl := Except.ok.inj (hw.symm.trans hw')
    obtain rfl := Except.ok.inj (Option.some.inj (htype.symm.trans hmeaning'))
    exact Checker.ensureSort_of_isProp hT hW hprop'
  · obtain ⟨u, hmeaning⟩ := runFresh_eq_ok.mp hmeaning
    have hΓ := hread.context hfree hyps.length
    rw [List.take_length] at hΓ
    exact elaborate_fvarsIn hfree.fvarsIn hΓ t hmeaning

/-- A hypothesis about a constant, one about that hypothesis, and a goal that mentions
both of them. -/
theorem loaded_dependent_hypotheses :
    ∃ st, (toState 50 ⟨[⟨"c", "Nat"⟩], [⟨"h", "c = c"⟩, ⟨"k", "h = h"⟩], "k = k"⟩).run =
        some (.ok st) ∧ ∃ hyps target, st = .start st.env target hyps ∧
      Loaded ⟨[⟨"c", "Nat"⟩], [⟨"h", "c = c"⟩, ⟨"k", "h = h"⟩], "k = k"⟩ 50 st.env hyps target := by
  have hloads : (toState 50 ⟨[⟨"c", "Nat"⟩], [⟨"h", "c = c"⟩, ⟨"k", "h = h"⟩],
      "k = k"⟩).run.any Except.isOk := by
    decide +kernel
  cases hrun : (toState 50 ⟨[⟨"c", "Nat"⟩], [⟨"h", "c = c"⟩, ⟨"k", "h = h"⟩], "k = k"⟩).run with
  | none =>
    rw [hrun] at hloads
    cases hloads
  | some r =>
    cases r with
    | error err =>
      rw [hrun] at hloads
      cases hloads
    | ok st => exact ⟨st, rfl, loaded_of_toState hrun⟩

/-! ### A hypothesis that is no type -/

/-- A number is taken for the type of a hypothesis: the problem loads, and no checker
accepts the number as a type. -/
theorem toState_of_number_as_hypothesis :
    ∃ st hyps h target,
      (toState 50 ⟨[], [⟨"h", "Nat.zero"⟩], "Nat.zero = Nat.zero"⟩).run = some (.ok st) ∧
      st = .start st.env target hyps ∧ hyps = [h] ∧
      ∀ n l, (Checker.ensureSort ⟨st.env, .empty, n⟩ h.type).runFresh ≠ some (.ok l) := by
  let nat : Expr := .const Vocabulary.nat []
  let zero : Expr := .const Vocabulary.natZero []
  let h : Hypothesis := ⟨⟨0⟩, "h", zero, none⟩
  let target : Expr := .mkEq .one nat zero zero
  refine ⟨.start ⟨Prelude.constants⟩ target [h], [h], h, target, by decide +kernel, rfl, rfl,
    fun n l => ?_⟩
  cases n with
  | zero => exact nofun
  | succ n =>
    have hrefused : (Checker.ensureSort ⟨⟨Prelude.constants⟩, .empty, n + 1⟩ zero).runFresh =
        some (.error (.notASort zero nat)) := rfl
    intro hok
    cases hrefused.symm.trans hok

end Problem

end Pinpoint
