/-
Properties that a rewrite hands on.

Some properties of terms hold of a term exactly if they hold of its parts, are
told the number of binders around the term, and outlive instantiation: that all
bound variables have their binders, or that all free variables are as asked.  A
rewrite takes terms apart and puts the parts together again, so such a property
of the statement, of the rules and of the values of a match is one of the
equation along which the statement is replaced.

* `Hereditary` — what such a property has to satisfy;
* `Expr.fvarsIn_hereditary`, `Expr.scoped_hereditary` — two of them;
* `Hereditary.child`, `Hereditary.replaceWith?` — a part at a position, and another in its
  place;
* `Hereditary.selectedEquation` — what a selected equation states, and its
  proof, inherit the property.
-/
import Pinpoint.Proofs.Renaming
import Pinpoint.Proofs.ScopedInference
import Pinpoint.Proofs.Selection
import Pinpoint.Proofs.Steps

namespace Pinpoint

/-- Properties of terms below a number of binders that are those of their
parts and that the operations of a rewrite keep. -/
structure Hereditary (P : Nat → Expr → Prop) : Prop where
  sort : ∀ {n l}, P n (.sort l)
  const : ∀ {n c ls}, P n (.const c ls)
  bvar : ∀ {n i}, i.toNat < n → P n (.bvar i)
  app : ∀ {n f a}, P n (.app f a) ↔ P n f ∧ P n a
  lam : ∀ {n i t b}, P n (.lam i t b) ↔ P n t ∧ P (n + 1) b
  pi : ∀ {n i t b}, P n (.pi i t b) ↔ P n t ∧ P (n + 1) b
  letE : ∀ {n t v b}, P n (.letE t v b) ↔ P n t ∧ P n v ∧ P (n + 1) b
  mdata : ∀ {n m e}, P n (.mdata m e) ↔ P n e
  mono : ∀ {m n e}, P m e → m ≤ n → P n e
  lift : ∀ {n e}, P n e → P (n + 1) (e.lift 1)
  instantiate : ∀ {n e v}, P (n + 1) e → P 0 v → P n (e.instantiate v)
  instantiateRev : ∀ {e : Expr} {vals : List Expr}, P vals.length e → (∀ v ∈ vals, P 0 v) →
    P 0 (e.instantiateRev vals)
  /-- The values of a match in a term with the property have it. -/
  values : ∀ {checker : Checker} {r : Rule} {host : Expr} {m : Match},
    r.IsMatch checker host m → m.subst = m.values.map some → P 0 host → ∀ v ∈ m.values, P 0 v

/-! ### Free variables -/

namespace Expr

variable {p : FVarId → Prop} {e e' : Expr}

theorem FVarsIn.instantiateRev {vals : List Expr} (h : e.FVarsIn p) (hv : ∀ v ∈ vals, v.FVarsIn p) :
    (e.instantiateRev vals).FVarsIn p := by
  refine FVarsIn.mapVars (g := fun _ x => .fvar x) (fun d i => ?_) (fun _ _ hx => hx) h 0
  split
  · trivial
  · split
    · rename_i v hget
      exact (hv v (List.mem_reverse.mp (List.mem_of_getElem? hget))).lift d
    · trivial

theorem FVarsIn.child {s : Step} (h : e.FVarsIn p) (hc : e.child? s = some e') :
    e'.FVarsIn p := by
  induction e with
  | mdata _ _ ih => exact ih h hc
  | app f a =>
    cases s <;> simp only [child?, reduceCtorEq, Option.some.injEq] at hc <;> subst hc
    exacts [h.1, h.2]
  | lam i t b | pi i t b =>
    cases s <;> simp only [child?, reduceCtorEq, Option.some.injEq] at hc <;> subst hc
    exacts [h.1, h.2]
  | letE t v b =>
    cases s <;> simp only [child?, reduceCtorEq, Option.some.injEq] at hc <;> subst hc
    exacts [h.1, h.2.1, h.2.2]
  | _ => simp only [child?, reduceCtorEq] at hc

theorem FVarsIn.subterm? {π : Path} (h : e.FVarsIn p) (hs : e.subterm? π = some e') :
    e'.FVarsIn p := by
  induction π generalizing e with
  | nil =>
    rw [subterm?_nil] at hs
    exact Option.some.inj hs ▸ h.stripMData
  | cons s π ih =>
    rw [subterm?_cons] at hs
    obtain ⟨c, hc, hs⟩ := Option.bind_eq_some_iff.mp hs
    exact ih (h.child hc) hs

/-- The values of a match are found in the term that is matched. -/
theorem FVarsIn.of_matchAt? {pat : Expr} {d : UInt32} {s t : Substitution} (he : e.FVarsIn p)
    (hs : ∀ v, some v ∈ s → v.FVarsIn p) (h : matchAt? pat d e s = some t) :
    ∀ v, some v ∈ t → v.FVarsIn p :=
  fun v hv => (subterm_of_matchAt? h hv).elim (hs v) fun ⟨_, hπ⟩ => he.subterm? hπ

theorem fvarsIn_hereditary (p : FVarId → Prop) : Hereditary fun _ => FVarsIn p where
  sort := trivial
  const := trivial
  bvar _ := trivial
  app := Iff.rfl
  lam := Iff.rfl
  pi := Iff.rfl
  letE := Iff.rfl
  mdata := Iff.rfl
  mono h _ := h
  lift h := h.lift 1
  instantiate h hv := h.instantiate hv
  instantiateRev h hv := h.instantiateRev hv
  values hm hvals hhost v hv := by
    refine FVarsIn.of_matchAt? (hhost.subterm? hm.subterm_eq) (fun w hw => ?_) hm.match_eq v ?_
    · simp at hw
    · rw [hvals]
      exact List.mem_map_of_mem hv

end Expr

/-! ### Bound variables -/

/-- The values of a match are well scoped, for they have types. -/
theorem Rule.IsMatch.scoped_values {checker : Checker} {r : Rule} {host : Expr} {m : Match}
    (h : r.IsMatch checker host m) (hvals : m.subst = m.values.map some) :
    m.values.length = r.varTypes.length ∧ ∀ v ∈ m.values, v.Scoped 0 := by
  have hmatch := h.match_eq
  rw [hvals] at hmatch
  have hlen := (Rule.match?_spec hmatch).1
  refine ⟨hlen, fun v hv => ?_⟩
  obtain ⟨k, hk⟩ := List.mem_iff_getElem?.mp hv
  obtain ⟨s, s', htyped⟩ := h.typed
  rw [hvals] at htyped
  obtain ⟨type, -, t, T, t', hT, -⟩ := Rule.hasType_of_wellTyped htyped hlen hk
  exact Environment.scoped_of_inferType hT

namespace Expr

theorem scoped_hereditary : Hereditary Scoped where
  sort := trivial
  const := trivial
  bvar h := h
  app := Iff.rfl
  lam := Iff.rfl
  pi := Iff.rfl
  letE := Iff.rfl
  mdata := Iff.rfl
  mono h hmn := h.mono hmn
  lift {n e} h := show Scoped (n + (1 : UInt32).toNat) (e.lift 1) from h.lift
  instantiate h hv := h.instantiate hv
  instantiateRev h hv := h.instantiateRev hv
  values hm hvals _ := (hm.scoped_values hvals).2

end Expr

/-! ### Terms taken apart and put together -/

/-- Whether what a rule states of its variables is as asked. -/
structure Rule.States (P : Nat → Expr → Prop) (r : Rule) : Prop where
  carrier : P r.varTypes.length r.statement.carrier
  lhs : P r.varTypes.length r.statement.lhs
  rhs : P r.varTypes.length r.statement.rhs

/-- Whether what an equation states is as asked. -/
structure Equation.States (P : Nat → Expr → Prop) (eq : Equation) : Prop where
  carrier : P 0 eq.carrier
  lhs : P 0 eq.lhs
  rhs : P 0 eq.rhs

namespace Hereditary

variable {P : Nat → Expr → Prop} {n : Nat} {e e' : Expr}

theorem mkApp (hP : Hereditary P) {args : List Expr} :
    P n (e.mkApp args) ↔ P n e ∧ ∀ a ∈ args, P n a := by
  induction args generalizing e with
  | nil => simp
  | cons a args ih =>
    rw [Expr.mkApp_cons, ih, hP.app]
    simp [and_assoc]

theorem stripMData (hP : Hereditary P) (h : P n e) : P n e.stripMData := by
  induction e with
  | mdata m e ih => exact ih (hP.mdata.mp h)
  | _ => exact h

/-- What is stated below the quantifiers of a term. -/
theorem telescope (hP : Hereditary P) (h : P n e) :
    P (n + e.telescope.1.length) e.telescope.2 := by
  induction e generalizing n with
  | mdata m e ih => exact ih (hP.mdata.mp h)
  | pi i dom body _ ihb =>
    have hb := ihb (hP.pi.mp h).2
    rw [Expr.telescope, List.length_cons]
    rwa [Nat.add_assoc, Nat.add_comm 1] at hb
  | _ => exact h

theorem statement? (hP : Hereditary P) {s : Statement} (h : P n e) (hs : e.statement? = some s) :
    P n s.carrier ∧ P n s.lhs ∧ P n s.rhs := by
  have h := hP.stripMData h
  rcases Expr.statement?_eq_some hs with ⟨hr, heq⟩ | ⟨hr, -, hc, ls, heq⟩
  · rw [heq, Statement.toExpr, Statement.rebuild, hr] at h
    have hargs := (hP.mkApp.mp h).2
    exact ⟨hargs _ (by simp), hargs _ (by simp), hargs _ (by simp)⟩
  · rw [heq] at h
    have hargs := (hP.mkApp.mp h).2
    exact ⟨hc ▸ hP.sort, hargs _ (by simp), hargs _ (by simp)⟩

/-- The proof of a statement by reflexivity is made of the statement. -/
theorem reflProof (hP : Hereditary P) {s : Statement} (h : P n e) (hs : e.statement? = some s)
    (refl : Constant) : P n (s.reflProof refl) := by
  obtain ⟨hc, hl, -⟩ := hP.statement? h hs
  unfold Statement.reflProof
  split
  · exact hP.mkApp.mpr ⟨hP.const, by simpa using ⟨hc, hl⟩⟩
  · exact hP.mkApp.mpr ⟨hP.const, by simpa using hl⟩

theorem withSide (hP : Hereditary P) {s : Statement} (hc : P n s.carrier) (hl : P n s.lhs)
    (hr : P n s.rhs) (he : P n e) (side : Side) : P n (s.withSide e side) := by
  have hrebuild : ∀ {a b}, P n a → P n b → P n (s.rebuild a b) := by
    intro a b ha hb
    unfold Statement.rebuild
    split
    · exact hP.mkApp.mpr ⟨hP.const, by simpa using ⟨hc, ha, hb⟩⟩
    · exact hP.mkApp.mpr ⟨hP.const, by simpa using ⟨ha, hb⟩⟩
  cases side
  · exact hrebuild he hr
  · exact hrebuild hl he

/-- A part of a term stands under the binders that lead to it. -/
theorem child (hP : Hereditary P) {s : Step} {c : Expr} (h : P n e) (hc : e.child? s = some c) :
    P (n + s.binders.toNat) c := by
  induction e with
  | mdata _ _ ih => exact ih (hP.mdata.mp h) hc
  | app f a =>
    rw [hP.app] at h
    cases s <;> simp only [Expr.child?, reduceCtorEq, Option.some.injEq] at hc <;> subst hc
    exacts [h.1, h.2]
  | lam i t b =>
    rw [hP.lam] at h
    cases s <;> simp only [Expr.child?, reduceCtorEq, Option.some.injEq] at hc <;> subst hc
    exacts [h.1, h.2]
  | pi i t b =>
    rw [hP.pi] at h
    cases s <;> simp only [Expr.child?, reduceCtorEq, Option.some.injEq] at hc <;> subst hc
    exacts [h.1, h.2]
  | letE t v b =>
    rw [hP.letE] at h
    cases s <;> simp only [Expr.child?, reduceCtorEq, Option.some.injEq] at hc <;> subst hc
    exacts [h.1, h.2.1, h.2.2]
  | _ => simp only [Expr.child?, reduceCtorEq] at hc

/-- Another part in the place of one. -/
theorem withChild (hP : Hereditary P) {s : Step} {c c' : Expr} (h : P n e)
    (hc : e.child? s = some c) (hc' : P (n + s.binders.toNat) c') : P n (e.withChild s c') := by
  induction e with
  | mdata _ _ ih => exact hP.mdata.mpr (ih (hP.mdata.mp h) hc)
  | app f a =>
    rw [hP.app] at h
    cases s <;> simp only [Expr.child?, reduceCtorEq] at hc
    exacts [hP.app.mpr ⟨hc', h.2⟩, hP.app.mpr ⟨h.1, hc'⟩]
  | lam i t b =>
    rw [hP.lam] at h
    cases s <;> simp only [Expr.child?, reduceCtorEq] at hc
    exacts [hP.lam.mpr ⟨hc', h.2⟩, hP.lam.mpr ⟨h.1, hc'⟩]
  | pi i t b =>
    rw [hP.pi] at h
    cases s <;> simp only [Expr.child?, reduceCtorEq] at hc
    exacts [hP.pi.mpr ⟨hc', h.2⟩, hP.pi.mpr ⟨h.1, hc'⟩]
  | letE t v b =>
    rw [hP.letE] at h
    cases s <;> simp only [Expr.child?, reduceCtorEq] at hc
    exacts [hP.letE.mpr ⟨hc', h.2⟩, hP.letE.mpr ⟨h.1, hc', h.2.2⟩, hP.letE.mpr ⟨h.1, h.2.1, hc'⟩]
  | _ => simp only [Expr.child?, reduceCtorEq] at hc

theorem withRoot (hP : Hereditary P) {c : Expr} (hc : P n c) (e : Expr) : P n (e.withRoot c) := by
  induction e with
  | mdata _ _ ih => exact hP.mdata.mpr ih
  | _ => exact hc

/-- A term with a new part at a position, which is told how many binders are
around it. -/
theorem replaceWith? (hP : Hereditary P) {make : UInt32 → Expr}
    (hmake : ∀ k, P (n + k) (make (.ofNat k))) {π : Path} {k : Nat} (h : P (n + k) e)
    (hr : Expr.replaceWith? make e π (.ofNat k) = some e') : P (n + k) e' := by
  induction π generalizing e e' k with
  | nil =>
    rw [Expr.replaceWith?_nil] at hr
    exact Option.some.inj hr ▸ hP.withRoot (hmake k) e
  | cons s π ih =>
    -- The part below the step is told of the binders that the step crosses.
    obtain ⟨c, hc, part, hpart, rfl⟩ := Expr.replaceWith?_cons_eq_some.mp hr
    have hdepth : UInt32.ofNat k + s.binders = .ofNat (k + s.binders.toNat) := by
      rw [UInt32.ofNat_add, UInt32.ofNat_toNat]
    rw [hdepth] at hpart
    have hchild := hP.child h hc
    rw [Nat.add_assoc] at hchild
    exact hP.withChild h hc (Nat.add_assoc .. ▸ ih hchild hpart)

theorem abstractAt? (hP : Hereditary P) {π : Path} {body : Expr} (h : P n e)
    (hbody : e.abstractAt? π = some body) : P (n + 1) body := by
  refine hP.replaceWith? (n := n + 1) (k := 0) (fun k => hP.bvar ?_) (hP.lift h) hbody
  have := Expr.toNat_ofNat_le k
  omega

/-! ### Equations -/

section
variable (hP : Hereditary P)
include hP

theorem states_equationAt {r : Rule} (hr : r.States P) {vals : List Expr}
    (hlen : vals.length = r.varTypes.length) (hvals : ∀ v ∈ vals, P 0 v) :
    (r.equationAt vals).States P := by
  have hl := hP.instantiateRev (hlen ▸ hr.lhs) hvals
  have hrhs := hP.instantiateRev (hlen ▸ hr.rhs) hvals
  have hc := hP.instantiateRev (hlen ▸ hr.carrier) hvals
  unfold Rule.equationAt
  cases r.statement.relation <;> cases r.reversed
  · exact ⟨hc, hl, hrhs⟩
  · exact ⟨hc, hrhs, hl⟩
  · exact ⟨hP.sort, hl, hrhs⟩
  · exact ⟨hP.sort, hrhs, hl⟩

theorem proof_equationAt {r : Rule} (hr : r.States P) (hproof : P 0 r.proof) {vals : List Expr}
    (hlen : vals.length = r.varTypes.length) (hvals : ∀ v ∈ vals, P 0 v) :
    P 0 (r.equationAt vals).proof := by
  have hl := hP.instantiateRev (hlen ▸ hr.lhs) hvals
  have hrhs := hP.instantiateRev (hlen ▸ hr.rhs) hvals
  have hc := hP.instantiateRev (hlen ▸ hr.carrier) hvals
  have happ : P 0 (r.proof.mkApp vals) := hP.mkApp.mpr ⟨hproof, hvals⟩
  unfold Rule.equationAt
  cases r.statement.relation <;> cases r.reversed
  · exact happ
  · exact hP.mkApp.mpr ⟨hP.const, by simpa using ⟨hc, hl, hrhs, happ⟩⟩
  · exact hP.mkApp.mpr ⟨hP.const, by simpa using ⟨hl, hrhs, happ⟩⟩
  · have hsymm : P 0 (Expr.mkApp (.const Vocabulary.iffSymm [])
        [r.statement.lhs.instantiateRev vals, r.statement.rhs.instantiateRev vals,
          r.proof.mkApp vals]) := hP.mkApp.mpr ⟨hP.const, by simpa using ⟨hl, hrhs, happ⟩⟩
    exact hP.mkApp.mpr ⟨hP.const, by simpa using ⟨hrhs, hl, hsymm⟩⟩

theorem states_under {eq : Equation} (heq : eq.States P) {dom body codomain : Expr} {level : Level}
    (hbody : P 1 body) (hcod : P 0 codomain) : (eq.under dom body codomain level).States P :=
  ⟨hcod, hP.instantiate hbody heq.lhs, hP.instantiate hbody heq.rhs⟩

theorem proof_under {eq : Equation} (heq : eq.States P) (hproof : P 0 eq.proof)
    {dom body codomain : Expr} {level : Level} (hdom : P 0 dom) (hbody : P 1 body)
    (hcod : P 0 codomain) : P 0 (eq.under dom body codomain level).proof := by
  refine hP.mkApp.mpr ⟨hP.const, ?_⟩
  simpa using ⟨heq.carrier, hcod, heq.lhs, heq.rhs, hP.lam.mpr ⟨hdom, hbody⟩, hproof⟩

/-- A part of a statement that is searched, and the rest of the statement. -/
theorem select {target : Expr} {side? : Option Side} {scope : Scope} (h : P 0 target)
    (hsel : Scope.select target side? = .ok scope) :
    P 0 scope.host ∧ P 0 scope.type ∧ ∀ side s, scope.side = some (side, s) →
      P 0 s.carrier ∧ P 0 s.lhs ∧ P 0 s.rhs := by
  cases side? with
  | none =>
    obtain rfl : scope = Scope.whole target := Scope.select_eq_ok hsel
    exact ⟨h, hP.sort, nofun⟩
  | some side =>
    obtain ⟨s, hs, rfl⟩ := Scope.select_eq_ok hsel
    obtain ⟨hc, hl, hr⟩ := hP.statement? h hs
    cases side
    · exact ⟨hl, hc, fun _ _ hside => (Prod.mk.inj (Option.some.inj hside)).2 ▸ ⟨hc, hl, hr⟩⟩
    · exact ⟨hr, hc, fun _ _ hside => (Prod.mk.inj (Option.some.inj hside)).2 ▸ ⟨hc, hl, hr⟩⟩

/-- The equation of a match at its place. -/
theorem evaluate {env : Environment} {checker : Checker} {scope : Scope} {r : Rule} {m : Match}
    {eq : Equation} (hhost : P 0 scope.host) (htype : P 0 scope.type) (hr : r.States P)
    (hm : r.IsMatch checker scope.host m) (h : scope.evaluate env r m = .ok eq) :
    eq.States P ∧ (P 0 r.proof → P 0 eq.proof) := by
  obtain ⟨hvals, heq⟩ := Scope.evaluate_eq_ok h
  have hlen := (hm.scoped_values hvals).1
  have hv := hP.values hm hvals hhost
  have hat := hP.states_equationAt hr hlen hv
  split at heq
  · exact heq ▸ ⟨hat, fun hproof => hP.proof_equationAt hr hproof hlen hv⟩
  · obtain ⟨body, hbody, rfl⟩ := heq
    have hbody := hP.abstractAt? hhost hbody
    exact ⟨hP.states_under hat hbody htype, fun hproof =>
      hP.proof_under hat (hP.proof_equationAt hr hproof hlen hv) hat.carrier hbody htype⟩

/-- What a selected equation states is made of the statement at its site and of
what the rules state; its proof also has their proofs in it. -/
theorem selectedEquation {fuel : Nat} {st : ProofState} {sel : Selection} {site : Site}
    {eq : Equation} (h : (st.selectedEquation fuel sel site).run = some (.ok eq))
    (htarget : ∀ e, (st.statementAt site).run = some (.ok e) → P 0 e)
    (hrules : ∀ r ∈ sel.rules, r.States P) :
    eq.States P ∧ ((∀ r ∈ sel.rules, P 0 r.proof) → P 0 eq.proof) := by
  obtain ⟨target, scope, r, m, eq₀, hchoice, heval, hjust⟩ :=
    ProofState.selectedEquation_eq_ok_iff.mp h
  obtain ⟨hhost, htype, hside⟩ := hP.select (htarget target hchoice.target_eq) hchoice.scope_eq
  obtain ⟨-, -, i, -, -, -, hr⟩ := hchoice.found
  have hr := List.mem_of_getElem? hr
  obtain ⟨checker, -, hm⟩ := hchoice.isMatch
  obtain ⟨hstates, hproof⟩ := hP.evaluate hhost htype (hrules r hr) hm heval
  have heq := Scope.justify_eq_ok hjust
  split at heq
  · exact heq ▸ ⟨hstates, fun hproofs => hproof (hproofs r hr)⟩
  · rename_i side s hs
    obtain ⟨hc, hl, hrhs⟩ := hside side s hs
    have hbody : P 1 (s.withSide (.bvar 0) side) :=
      hP.withSide (hP.mono hc (Nat.zero_le 1)) (hP.mono hl (Nat.zero_le 1))
        (hP.mono hrhs (Nat.zero_le 1)) (hP.bvar (i := 0) Nat.zero_lt_one) side
    exact heq ▸ ⟨hP.states_under hstates hbody hP.sort, fun hproofs =>
      hP.proof_under hstates (hproof (hproofs r hr)) hc hbody hP.sort⟩

end

end Hereditary

end Pinpoint
