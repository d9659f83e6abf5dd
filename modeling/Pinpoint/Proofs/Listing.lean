/-
The list of occurrences and the rewrite.

Both elaborate the rules, look up what is searched, and look for the matches
there.  The list fails where the rewrite fails before it has counted, and
otherwise has the occurrences that the rewrite counts.

* `occurrences_run` and `rewriteAtLocation_of_found` — what both come to, once
  what is searched is known;
* `nthRewrite_of_occurrences` — the rewrite fails like the list, finds no
  occurrence exactly past its end, and changes the occurrence that is listed
  and nothing else.
-/
import Pinpoint.Proofs.Prelude
import Pinpoint.Proofs.Replacement
import Pinpoint.Proofs.Rewrites

namespace Pinpoint

namespace ProofState

variable {fuel : Nat} {st : ProofState} {side : Option Side} {specs : List RuleSpec}
  {loc : Location} {g : Goal} {rules : List Rule}

/-! ### What is searched -/

/-- The site at a location, the statement there, and the part of it that is
searched. -/
def surveyAt (st : ProofState) (side : Option Side) (loc : Location) :
    QueryM (Site × Expr × Scope) := do
  let site ← st.resolve loc
  let target ← st.statementAt site
  let scope ← MonadExcept.ofExcept (Scope.select target side)
  return (site, target, scope)

theorem surveyAt_eq_ok {site : Site} {target : Expr} {scope : Scope} :
    (st.surveyAt side loc).run = some (.ok (site, target, scope)) ↔
      (st.resolve loc).run = some (.ok site) ∧ (st.statementAt site).run = some (.ok target) ∧
        Scope.select target side = .ok scope := by
  unfold surveyAt
  simp only [QueryM.run_bind_eq_ok, QueryM.run_ofExcept_eq_ok, QueryM.run_pure_eq_ok]
  constructor
  · rintro ⟨site', hsite, target', htarget, scope', hscope, heq⟩
    obtain ⟨rfl, rfl, rfl⟩ : site' = site ∧ target' = target ∧ scope' = scope := by simpa using heq
    exact ⟨hsite, htarget, hscope⟩
  · rintro ⟨hsite, htarget, hscope⟩
    exact ⟨site, hsite, target, htarget, scope, hscope, Eq.refl _⟩

theorem sites_of_ne_everywhere (hloc : loc ≠ .everywhere) (rules : List Rule) :
    st.sites rules loc = (do
      let site ← ExceptT.adapt (RewriteError.at loc) (st.resolve loc)
      return [(loc, site)] : QueryM (List (Location × Site))) := by
  cases loc with
  | everywhere => exact absurd (Eq.refl _) hloc
  | goal => rw [sites]; exact hloc
  | hyp n => rw [sites]; exact hloc

/-- At a single location, all that is searched is what the location and the
side mean. -/
theorem scopes_run (hloc : loc ≠ .everywhere) (rules : List Rule) :
    ((do
      let sites ← st.sites rules loc
      sites.filterMapM fun (loc', site) => do
        let scope ← ExceptT.adapt (RewriteError.at loc')
          (st.scopeAt? side (loc = .everywhere) site)
        return scope.map (loc', ·)) : QueryM (List (Location × Scope))).run =
      (st.surveyAt side loc).run.map fun r =>
        match r with
        | .error e => .error (.at loc e)
        | .ok (_, _, scope) => .ok [(loc, scope)] := by
  rw [sites_of_ne_everywhere hloc]
  unfold surveyAt scopeAt?
  rcases hsite : (st.resolve loc).run with _ | e | site
  · simp [hsite, ExceptT.run_bind]
  · simp [hsite, ExceptT.run_bind]
  · rcases htarget : (st.statementAt site).run with _ | e | target
    · simp [hsite, htarget, ExceptT.run_bind]
    · simp [hsite, htarget, ExceptT.run_bind]
    · cases hscope : Scope.select target side with
      | error e =>
        simp [hsite, htarget, hscope, hloc, ExceptT.run_bind, QueryM.run_ofExcept]
        rfl
      | ok scope =>
        simp [hsite, htarget, hscope, ExceptT.run_bind, QueryM.run_ofExcept]
        rfl

/-! ### The list -/

/-- What was found at a location, as it is listed. -/
def listed (loc : Location) (found : List (Nat × Match)) : List Occurrence :=
  found.zipIdx.map fun ((r, m), i) => ⟨loc, i, r, m.path, m.subterm⟩

theorem length_listed (loc : Location) (found : List (Nat × Match)) :
    (listed loc found).length = found.length := by
  simp [listed]

theorem getElem?_listed (loc : Location) (found : List (Nat × Match)) (i : Nat) :
    (listed loc found)[i]? = found[i]?.map fun (r, m) => ⟨loc, i, r, m.path, m.subterm⟩ := by
  simp [listed, Function.comp_def]

/-- The matches in what is searched at a single location. -/
def foundIn? (fuel : Nat) (st : ProofState) (rules : List Rule) (scope : Scope) :
    Option (List (Nat × Match)) := do
  let checker ← st.checker? fuel (← st.currentGoal?)
  (findAll checker none rules scope.host).runFresh

theorem foundIn?_eq_some {scope : Scope} {found : List (Nat × Match)} :
    st.foundIn? fuel rules scope = some found ↔ ∃ checker,
      (st.mainChecker fuel).run = some (.ok checker) ∧
        (findAll checker none rules scope.host).runFresh = some found := by
  unfold foundIn? mainChecker
  simp only [QueryM.run_bind_eq_ok, mainGoal_eq_ok, QueryM.run_lift_eq_ok, Option.bind_eq_bind,
    Option.bind_eq_some_iff]
  constructor
  · rintro ⟨g, hg, checker, hchecker, hfound⟩
    exact ⟨checker, ⟨g, hg, hchecker⟩, hfound⟩
  · rintro ⟨checker, ⟨g, hg, hchecker⟩, hfound⟩
    exact ⟨g, hg, checker, hchecker, hfound⟩

theorem occurrencesAt_singleton (checker : Checker) (rules : List Rule) (scope : Scope) :
    (occurrencesAt checker rules [(loc, scope)]).runFresh =
      (findAll checker none rules scope.host).runFresh.map (listed loc) := by
  show Option.map _ (Option.bind (findAll checker none rules scope.host Checker.firstFresh) _) =
    Option.map _ (Option.map _ (findAll checker none rules scope.host Checker.firstFresh))
  rcases findAll checker none rules scope.host Checker.firstFresh with _ | ⟨found, s⟩
  · exact Eq.refl _
  · show some (listed loc found ++ []) = some (listed loc found)
    rw [List.append_nil]

/-- The list at a single location, in steps. -/
theorem occurrences_run (hloc : loc ≠ .everywhere) :
    (occurrences fuel st side specs loc).run = (st.rulesFor fuel specs).run.bind fun r =>
      match r with
      | .error e => some (.error e)
      | .ok rules =>
        (st.surveyAt side loc).run.bind fun r =>
          match r with
          | .error e => some (.error (.at loc e))
          | .ok (_, _, scope) =>
            (st.foundIn? fuel rules scope).map fun found => .ok (listed loc found) := by
  unfold occurrences rulesFor
  rcases hg : st.mainGoal.run with _ | e | g
  · rw [QueryM.run_bind_of_none hg, QueryM.run_bind_of_none hg]
    exact Eq.refl _
  · rw [QueryM.run_bind_of_error hg, QueryM.run_bind_of_error hg]
    exact Eq.refl _
  rw [QueryM.run_bind_of_ok hg, QueryM.run_bind_of_ok hg]
  -- First the rules, then the statement, and then the search.
  rcases hrules : (st.elaborateRules fuel g specs).run with _ | e | rules
  · rw [QueryM.run_bind_of_none hrules]
    exact Eq.refl _
  · rw [QueryM.run_bind_of_error hrules]
    exact Eq.refl _
  rw [QueryM.run_bind_of_ok hrules, ← bind_assoc, ExceptT.run_bind, scopes_run hloc]
  rcases (st.surveyAt side loc).run with _ | e | ⟨site, target, scope⟩
  · exact Eq.refl _
  · exact Eq.refl _
  have hfound : st.foundIn? fuel rules scope = (st.checker? fuel g).bind fun checker =>
      (findAll checker none rules scope.host).runFresh := by
    unfold foundIn?
    rw [mainGoal_eq_ok.mp hg]
    exact Eq.refl _
  dsimp only [Option.bind_some, Option.map_some]
  rw [hfound]
  rcases hchecker : st.checker? fuel g with _ | checker
  · exact Eq.refl _
  show (liftM (occurrencesAt checker rules [(loc, scope)]).runFresh : QueryM _).run =
    Option.map _ (findAll checker none rules scope.host).runFresh
  rw [occurrencesAt_singleton]
  cases (findAll checker none rules scope.host).runFresh <;> exact Eq.refl _

/-! ### The rewrite -/

/-- A rewrite of something that cannot be searched fails like the list. -/
theorem rewriteAtLocation_of_error (sel : Selection) {e : RewriteError}
    (h : (st.surveyAt sel.side loc).run = some (.error e)) :
    (st.rewriteAtLocation fuel sel loc).run = some (.error (.at loc e)) := by
  unfold surveyAt at h
  unfold rewriteAtLocation
  rw [QueryM.run_adapt]
  rcases hsite : (st.resolve loc).run with _ | e | site
  · rw [QueryM.run_bind_of_none hsite] at h
    cases h
  · rw [QueryM.run_bind_of_error hsite] at h ⊢
    cases h
    exact Eq.refl _
  rw [QueryM.run_bind_of_ok hsite] at h ⊢
  -- The list and the rewrite both ask for the statement and its side first.
  have hselected : (st.selectedEquation fuel sel site).run = some (.error e) := by
    unfold selectedEquation
    rcases htarget : (st.statementAt site).run with _ | e | target
    · rw [QueryM.run_bind_of_none htarget] at h
      cases h
    · rw [QueryM.run_bind_of_error htarget] at h ⊢
      cases h
      exact Eq.refl _
    · rw [QueryM.run_bind_of_ok htarget] at h ⊢
      cases hscope : Scope.select target sel.side with
      | error e =>
        simp only [hscope] at h ⊢
        cases h
        exact Eq.refl _
      | ok scope =>
        simp only [hscope] at h
        cases h
  rw [rewriteAt_eq, QueryM.run_bind_of_error hselected]
  exact Eq.refl _

/-- A rewrite of what can be searched: the equation of the selected match,
and the store with the statement replaced. -/
theorem rewriteAtLocation_of_found {sel : Selection} {site : Site} {target : Expr} {scope : Scope}
    {found : List (Nat × Match)} (hdepth : sel.maxDepth = none)
    (hsurvey : (st.surveyAt sel.side loc).run = some (.ok (site, target, scope)))
    (hfound : st.foundIn? fuel sel.rules scope = some found) :
    (st.rewriteAtLocation fuel sel loc).run =
      Option.map (Except.mapError (.at loc))
        (match sel.equation st.env scope found with
        | .error e => some (.error e)
        | .ok eq => (st.replace site eq).run) := by
  obtain ⟨hsite, htarget, hscope⟩ := surveyAt_eq_ok.mp hsurvey
  obtain ⟨checker, hchecker, hfound⟩ := foundIn?_eq_some.mp hfound
  unfold rewriteAtLocation
  rw [QueryM.run_adapt, QueryM.run_bind_of_ok hsite, rewriteAt_eq, ExceptT.run_bind,
    selectedEquation_run htarget hscope hchecker (hdepth ▸ hfound)]
  cases sel.equation st.env scope found <;> exact Eq.refl _

end ProofState

/-- A match that is found is one of its rule; if it is not rewritten, that is
not because there is none. -/
theorem Selection.equation_of_found (env : Environment) (scope : Scope) {sel : Selection}
    {found : List (Nat × Match)} {i : Nat} {m : Match} {r : Rule}
    (hi : found[sel.index]? = some (i, m)) (hr : sel.rules[i]? = some r) :
    (∃ eq, sel.equation env scope found = .ok eq) ∨
      ∃ e, sel.equation env scope found = .error e ∧ ∀ k n, e.innermost ≠ .noMatch k n := by
  unfold equation
  simp only [hi, hr]
  cases scope.evaluate env r m with
  | error e => exact .inr ⟨_, rfl, nofun⟩
  | ok eq =>
    cases scope.side with
    | none => exact .inl ⟨eq, rfl⟩
    | some p =>
      dsimp only
      cases scope.justify env eq with
      | error e => exact .inr ⟨_, rfl, nofun⟩
      | ok eq' => exact .inl ⟨eq', rfl⟩

/-- Whether the new statement is the old one with the other side of a rule, at
the values at which it matches, in the place of an occurrence, and all else as
it was.  What is put in has to fit the width of an index. -/
structure Occurrence.RewrittenBy (occ : Occurrence) (r : Rule) (vals : List Expr) (scope : Scope)
    (old new : Expr) : Prop where
  subterm_eq : scope.host.subterm? occ.path = some occ.subterm
  match_eq : r.match? occ.subterm = some (vals.map some)
  old_eq : (scope.fill scope.host).eraseMData = old.eraseMData
  new_eq : (r.replacement.instantiateRev vals).nesting < 2 ^ 32 →
    ∃ part, scope.host.replaceAt? occ.path (r.replacement.instantiateRev vals) = some part ∧
      new.eraseMData = (scope.fill part).eraseMData
  /-- Around a side nothing changes. -/
  statement_eq : ∀ side s, scope.side = some (side, s) → old.statement? = some s ∧
    ∃ s', new.statement? = some s' ∧ s'.relation = s.relation ∧ s'.level = s.level ∧
      s'.carrier = s.carrier ∧ s'.otherSide side = s.otherSide side

namespace ProofState

variable {fuel : Nat} {st st' : ProofState} {sel : Selection} {loc : Location} {site : Site}
  {old : Expr} {scope : Scope} {r : Rule} {m : Match} {eq₀ eq : Equation}

/-- The equation of an occurrence that the store accepted leads to the new
statement. -/
theorem rewrittenBy_of_replace {occ : Occurrence} (hpath : occ.path = m.path)
    (hsubterm : occ.subterm = m.subterm) (hchoice : st.Choice fuel sel site old scope r m)
    (hreplacement : r.replacement.Scoped r.varTypes.length)
    (heval : scope.evaluate st.env r m = .ok eq₀) (hjust : scope.justify st.env eq₀ = .ok eq)
    (hreplace : (st.replace site eq).run = some (.ok st')) :
    occ.RewrittenBy r m.values scope old eq.rhs := by
  obtain ⟨checker, -, hmatch⟩ := hchoice.isMatch
  have hvals := (Scope.evaluate_eq_ok heval).1
  -- The store has taken the equation, so its left side is the old statement.
  have haccept : eq.lhs.eqModMData old = true := by
    rw [← Bool.not_eq_false]
    intro hne
    obtain ⟨e, he, -⟩ := (replace_rejects_iff hchoice.target_eq).mpr hne
    rw [hreplace] at he
    cases he
  have hkeeps := ((found_occurrence_accepted_iff hchoice heval hjust).1.mp haccept).2
  -- Then the statement around the match is kept, and the right side is the new one.
  have hrhs : eq.rhs = scope.fill eq₀.rhs := Scope.justify_rhs hchoice.scope_eq hjust hkeeps
  refine ⟨?_, ?_, Scope.fill_host hchoice.scope_eq hkeeps, fun hfits => ?_, fun side s hside => ?_⟩
  · rw [hpath, hsubterm]
    exact hmatch.subterm_eq
  · rw [hsubterm, ← hvals]
    exact hmatch.match_eq
  · obtain ⟨hlen, hscoped⟩ := hmatch.scoped_values hvals
    have hnew : (r.replacement.instantiateRev m.values).hasLooseBVars = false :=
      ((hlen ▸ hreplacement).instantiateRev hscoped).hasLooseBVars hfits
    have hbeside : scope.host.besideBVars (fun _ i => i ≠ maxIndex) 0 m.path := by
      rw [Scope.keepsContext, Bool.and_eq_true] at hkeeps
      exact hkeeps.1
    obtain ⟨part, hpart, herase⟩ := Scope.evaluate_rhs heval hnew hbeside
    rw [hpath, hrhs]
    exact ⟨part, hpart, scope.eraseMData_fill herase⟩
  · have hs := Scope.statement?_of_side hchoice.scope_eq hside
    obtain ⟨s', hs', hrel, hlevel, hcarrier, hother, -⟩ :=
      Statement.statement?_withSide hs eq₀.rhs side
    rw [hrhs, Scope.fill, hside]
    exact ⟨hs, s', hs', hrel, hlevel, hcarrier, hother⟩

/-- Past the end of the list there is no match. -/
theorem rewriteAtLocation_past_end (sel : Selection) {found : List (Nat × Match)}
    (hdepth : sel.maxDepth = none)
    (hsurvey : (st.surveyAt sel.side loc).run = some (.ok (site, old, scope)))
    (hfound : st.foundIn? fuel sel.rules scope = some found)
    (hindex : found[sel.index]? = none) :
    (st.rewriteAtLocation fuel sel loc).run =
      some (.error (.at loc (.noMatch sel.index found.length))) := by
  rw [rewriteAtLocation_of_found hdepth hsurvey hfound, Selection.equation, hindex]
  exact Eq.refl _

/-- Within the list the rewrite is decided: it fails for another reason than
that there is no match, or the listed occurrence is rewritten. -/
theorem rewriteAtLocation_listed (sel : Selection) {specs : List RuleSpec}
    {found : List (Nat × Match)} {i : Nat}
    (hst : st.WellTyped) (hrules : (st.rulesFor fuel specs).run = some (.ok sel.rules))
    (hdepth : sel.maxDepth = none)
    (hsurvey : (st.surveyAt sel.side loc).run = some (.ok (site, old, scope)))
    (hfound : st.foundIn? fuel sel.rules scope = some found)
    (hindex : found[sel.index]? = some (i, m)) :
    (∃ e, (st.rewriteAtLocation fuel sel loc).run = some (.error e) ∧
        ∀ k n, e.innermost ≠ .noMatch k n) ∨
      ∃ st' r vals new, (st.rewriteAtLocation fuel sel loc).run = some (.ok st') ∧
        sel.rules[i]? = some r ∧ st'.storedAt? loc = some new ∧
        Occurrence.RewrittenBy ⟨loc, sel.index, i, m.path, m.subterm⟩ r vals scope old new := by
  rw [rewriteAtLocation_of_found hdepth hsurvey hfound]
  obtain ⟨hsite, htarget, hscope⟩ := surveyAt_eq_ok.mp hsurvey
  obtain ⟨g, hg, hrules⟩ := QueryM.run_bind_eq_ok.mp hrules
  obtain ⟨checker, hchecker, hfound⟩ := foundIn?_eq_some.mp hfound
  obtain ⟨t, hrun⟩ := Supply.runFresh_eq_some.mp hfound
  obtain ⟨r, hr, -⟩ := isMatch_of_mem_findAll hrun (List.mem_of_getElem? hindex)
  rcases Selection.equation_of_found st.env scope hindex hr with
    ⟨eq, heq⟩ | ⟨e, he, hne⟩
  · -- The match has an equation, and the replacement along it is made or refused.
    rw [heq]
    dsimp only
    rcases replace_answers eq htarget with ⟨st', hst'⟩ | ⟨e, he⟩
    · obtain ⟨i', m', r', eq₀, hi', hr', heval, hjust⟩ := Selection.equation_eq_ok.mp heq
      obtain ⟨rfl, rfl⟩ : i = i' ∧ m = m' := by simpa [hindex] using hi'
      obtain rfl := Option.some.inj (hr.symm.trans hr')
      -- What is replaced is the occurrence that the list has under this number.
      have hchoice : st.Choice fuel sel site old scope r m :=
        ⟨htarget, hscope, checker, found, i, hchecker, hdepth ▸ hfound, hindex, hr⟩
      refine .inr ⟨st', r, m.values, eq.rhs, ?_, hr, ?_, ?_⟩
      · rw [hst']
        exact Eq.refl _
      · exact storedAt?_replace hsite hst.nodup hst'
      · exact rewrittenBy_of_replace (Eq.refl _) (Eq.refl _) hchoice
          (hst.scoped_replacement (mainGoal_eq_ok.mp hg) hrules (List.mem_of_getElem? hr))
          heval hjust hst'
    · refine .inl ⟨.at loc (.replacement e), ?_, nofun⟩
      rw [he]
      exact Eq.refl _
  · rw [he]
    exact .inl ⟨.at loc e, Eq.refl _, hne⟩

end ProofState

/-- The list of the occurrences and the rewrite agree, in a well-typed state
and at a single location.  The rewrite fails as the list does; it finds no
match exactly if the number is past the end of the list; and if it succeeds,
the statement that is stored afterwards is the old one with the listed
occurrence rewritten. -/
theorem nthRewrite_of_occurrences {fuel : Nat} {st : ProofState} {side : Option Side}
    {specs : List RuleSpec} {loc : Location} {options : RewriteOptions}
    {listing : Except RewriteError (List Occurrence)} (hst : st.WellTyped)
    (hloc : loc ≠ .everywhere) (hrfl : options.tryRfl = false) (hdepth : options.maxDepth = none)
    (hlisting : (occurrences fuel st side specs loc).run = some listing) (index : Nat) :
    match listing with
    | .error e => (nthRewrite fuel side index specs loc options).answer st = some (.error e, st)
    | .ok occs =>
      match occs[index]? with
      | none =>
        ∃ e, (nthRewrite fuel side index specs loc options).answer st = some (.error e, st) ∧
          e.innermost = .noMatch index occs.length
      | some occ =>
        (∃ e, (nthRewrite fuel side index specs loc options).answer st = some (.error e, st) ∧
          ∀ k n, e.innermost ≠ .noMatch k n) ∨
        ∃ outcome st', (nthRewrite fuel side index specs loc options).answer st =
            some (.ok outcome, st') ∧
          ∃ rules r site old scope vals new, (st.rulesFor fuel specs).run = some (.ok rules) ∧
            rules[occ.rule]? = some r ∧
            (st.surveyAt side loc).run = some (.ok (site, old, scope)) ∧
            st'.storedAt? loc = some new ∧ occ.RewrittenBy r vals scope old new := by
  rw [ProofState.occurrences_run hloc] at hlisting
  rw [nthRewrite_answer hloc hrfl]
  -- Both elaborate the rules, and both fail if one of them is wrong.
  rcases hrules : (st.rulesFor fuel specs).run with _ | e | rules
  · simp [hrules] at hlisting
  · rw [hrules] at hlisting
    cases hlisting
    rfl
  rw [hrules] at hlisting
  simp only [Option.bind_some] at hlisting ⊢
  -- Both look at the same part of the same statement.
  rcases hsurvey : (st.surveyAt side loc).run with _ | e | ⟨site, old, scope⟩
  · simp [hsurvey] at hlisting
  · rw [hsurvey] at hlisting
    cases hlisting
    rw [ProofState.rewriteAtLocation_of_error ⟨side, index, rules, options.maxDepth⟩ hsurvey]
    rfl
  rw [hsurvey] at hlisting
  -- Both search it with the same checker.
  rcases hfound : st.foundIn? fuel rules scope with _ | found
  · simp [hfound] at hlisting
  simp only [hfound, Option.bind_some, Option.map_some, Option.some.injEq] at hlisting
  obtain rfl := hlisting
  dsimp only
  rw [ProofState.getElem?_listed]
  -- The number is past the end of the list, or that of a match.
  rcases hindex : found[index]? with _ | ⟨i, m⟩
  · rw [ProofState.rewriteAtLocation_past_end ⟨side, index, rules, options.maxDepth⟩ hdepth
      hsurvey hfound hindex, ProofState.length_listed]
    exact ⟨_, rfl, rfl⟩
  · rcases ProofState.rewriteAtLocation_listed ⟨side, index, rules, options.maxDepth⟩ hst hrules
      hdepth hsurvey hfound hindex with
      ⟨e, he, hne⟩ | ⟨st', r, vals, new, hst', hr, hnew, hrewritten⟩
    · rw [he]
      exact .inl ⟨e, rfl, hne⟩
    · rw [hst']
      exact .inr ⟨_, st', rfl, rules, r, site, old, scope, vals, new, rfl, hr, rfl, hnew,
        hrewritten⟩

/-! ### A statement with one occurrence -/

namespace Spelling

/-- The environment extends the prelude by checked constants. -/
theorem extendsPrelude_env : env.ExtendsPrelude := by
  have h : Environment.declareAll ⟨Prelude.constants⟩ 50
      (env.constants.drop Prelude.constants.length) = some (env, .ok ()) := by rfl
  exact Environment.of_declareAll .declare Environment.extendsPrelude_prelude h

/-- The context of the goal: the hypothesis and the hole. -/
def context : LocalContext :=
  (LocalContext.empty.push ⟨0⟩ (.simple "h") (.mkEq .one nat (k .one) x)).push
    (MetaId.toFVar ⟨0⟩) (.simple "?m0") target

theorem wellTyped : (state .one).WellTyped where
  env := extendsPrelude_env.checked
  context g Γ hg hΓ entry hentry := by
    obtain rfl := Option.some.inj hg
    obtain rfl : context = Γ := Option.some.inj hΓ
    rcases List.mem_cons.mp hentry with rfl | hentry
    · exact ⟨8, 0, _, _, .zero, by rfl, by rfl⟩
    · obtain rfl := List.mem_singleton.mp hentry
      exact ⟨8, 0, _, _, .zero, by rfl, by rfl⟩
  target g Γ e hg hΓ he := by
    obtain rfl := Option.some.inj hg
    obtain rfl : context = Γ := Option.some.inj hΓ
    obtain rfl : target = e := Option.some.inj he
    exact ⟨8, 0, _, _, .zero, by rfl, by rfl⟩
  values v hv e he := by
    obtain rfl := List.mem_singleton.mp hv
    cases he
  nodup g hg := by
    obtain rfl := Option.some.inj hg
    decide

/-- The hypothesis, as a rule is given. -/
def spec : RuleSpec := ⟨.expr (.fvar ⟨0⟩), false⟩

/-- The rewrite of the first occurrence in the statement. -/
def rewritten : Option (Except RewriteError RewriteOutcome × ProofState) :=
  (nthRewrite 8 none 0 [spec] .goal ⟨false, none⟩).answer (state .one)

end Spelling

open Spelling in
/-- The one occurrence that is listed is rewritten. -/
theorem listed_occurrence_rewritten :
    (occurrences 8 (state .one) none [spec] .goal).run =
        some (.ok [⟨.goal, 0, 0, [.appArg], k .one⟩]) ∧
      ∃ outcome st', rewritten = some (.ok outcome, st') ∧
        ∃ r scope vals new, st'.storedAt? .goal = some new ∧
          Occurrence.RewrittenBy ⟨.goal, 0, 0, [.appArg], k .one⟩ r vals scope target new := by
  have hlisting : (occurrences 8 (state .one) none [spec] .goal).run =
      some (.ok [⟨.goal, 0, 0, [.appArg], k .one⟩]) := by rfl
  have hsurvey : ((state .one).surveyAt none .goal).run =
      some (.ok (.goal, target, .whole target)) := by rfl
  have hok : rewritten.map (fun p => p.1.isOk) = some true := by rfl
  refine ⟨hlisting, ?_⟩
  rcases @nthRewrite_of_occurrences 8 (state .one) none [spec] .goal ⟨false, none⟩ _ wellTyped nofun
    rfl rfl hlisting 0 with ⟨e, he, -⟩ | ⟨outcome, st', hst', -, r, site, old, scope, vals, new, -,
      -, hs, hnew, h⟩
  · have he : rewritten = some (.error e, state .one) := he
    rw [he] at hok
    cases hok
  · obtain ⟨-, rfl, rfl⟩ : site = .goal ∧ old = target ∧ scope = .whole target := by
      simpa [hsurvey, eq_comm] using hs
    exact ⟨outcome, st', hst', r, _, vals, new, hnew, h⟩

end Pinpoint
