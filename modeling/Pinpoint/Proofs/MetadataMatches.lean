/-
Metadata makes no difference to matching.

Matching looks at terms under their metadata, so to drop the metadata of a term
is to drop that of the values that are found.  Terms that are the same up to
metadata have the same candidates up to metadata, and the checker has the same
answers about them, if it ends.

* `matchAt?_eraseMData`, `candidatesWithin_eraseMData` — matching, and listing what
  a rule matches, can be exchanged with dropping metadata;
* `valuesHaveTypes_agree` — the checker accepts values that are the same up to
  metadata, or neither;
* `eraseMData_transparent` — types, comparisons and searches are the same for terms
  that are the same up to metadata, up to metadata.
-/
import Pinpoint.Proofs.Candidates
import Pinpoint.Proofs.Instances
import Pinpoint.Proofs.MetadataTypes

namespace Pinpoint

/-! ### Positions -/

namespace Expr

theorem positions_eraseMData (e : Expr) : e.eraseMData.positions = e.positions := by
  induction e with
  | app _ _ ihf iha => rw [eraseMData, positions, positions, ihf, iha]
  | lam _ _ _ iht ihb | pi _ _ _ iht ihb => rw [eraseMData, positions, positions, iht, ihb]
  | letE _ _ _ iht ihv ihb => rw [eraseMData, positions, positions, iht, ihv, ihb]
  | mdata _ _ ih => exact ih
  | _ => rfl

theorem subterm?_eraseMData (e : Expr) (π : Path) :
    e.eraseMData.subterm? π = (e.subterm? π).map eraseMData := by
  induction e generalizing π with
  | mdata m e ih => rw [subterm?_mdata, ← ih]; rfl
  | app _ _ ihf iha =>
    rcases π with _ | ⟨_ | _, _⟩ <;> simp [eraseMData, subterm?, ihf, iha]
  | lam _ _ _ iht ihb | pi _ _ _ iht ihb =>
    rcases π with _ | ⟨_ | _, _⟩ <;> simp [eraseMData, subterm?, iht, ihb]
  | letE _ _ _ iht ihv ihb =>
    rcases π with _ | ⟨_ | _, _⟩ <;> simp [eraseMData, subterm?, iht, ihv, ihb]
  | _ => rcases π with _ | ⟨_ | _, _⟩ <;> simp [eraseMData, subterm?]

theorem hasLooseBVars_eraseMData (e : Expr) : e.eraseMData.hasLooseBVars = e.hasLooseBVars :=
  hasLooseBVars_of_canonical_eq (canonical_eq_of_skeleton_eq e.skeleton_eraseMData)

end Expr

/-! ### Matching -/

/-- The values without their metadata. -/
def Substitution.eraseMData (s : Substitution) : Substitution := s.map (Option.map Expr.eraseMData)

/-- The occurrence without metadata. -/
def Match.eraseMData (m : Match) : Match := ⟨m.path, m.subterm.eraseMData, m.subst.eraseMData⟩

theorem Substitution.bind?_eraseMData (s : Substitution) (k : Nat) (e : Expr) :
    s.eraseMData.bind? k e.eraseMData = (s.bind? k e).map eraseMData := by
  have hlen : s.eraseMData.length = s.length := List.length_map _
  have heq : ∀ old : Expr, old.eraseMData.eqModMData e.eraseMData = old.eqModMData e := by
    intro old
    rw [Bool.eq_iff_iff, Expr.eqModMData_iff, Expr.eqModMData_iff, Expr.skeleton_eraseMData,
      Expr.skeleton_eraseMData]
  unfold bind?
  rw [hlen]
  by_cases hk : k < s.length
  · rw [if_pos hk, if_pos hk]
    have hslot : s.eraseMData[s.length - 1 - k]? =
        (s[s.length - 1 - k]?).map (Option.map Expr.eraseMData) := List.getElem?_map
    dsimp only
    rw [hslot]
    have hset : Substitution.eraseMData (s.set (s.length - 1 - k) (some e)) =
        s.eraseMData.set (s.length - 1 - k) (some e.eraseMData) := List.map_set
    rcases s[s.length - 1 - k]? with _ | _ | old
    · exact congrArg some hset.symm
    · exact congrArg some hset.symm
    · simp only [Option.map_some, heq]
      split <;> rfl
  · rw [if_neg hk, if_neg hk, Option.map_none]

namespace Expr

/-- A term is a variable, a constant or a literal under its metadata if it is without
its metadata. -/
theorem eraseMData_eq_leaf {a e : Expr} (ha : Cleaning.IsLeaf a) :
    e.eraseMData = a ↔ e.stripMData = a := by
  have hself : Cleaning.dropMData.clean a = a := by
    cases a <;> first | exact absurd ha id | rfl
  rw [← Cleaning.dropMData_clean]
  constructor
  · exact fun h => Cleaning.of_leaf (hself.trans h.symm) ha
  · exact fun h => by rw [← Cleaning.clean_stripMData, h, hself]

end Expr

/-- Whether a pattern is matched with the values without metadata by the terms
without metadata. -/
def MatchesErased (p : Expr) : Prop :=
  ∀ d e s, matchAt? p d e.eraseMData s.eraseMData =
    (matchAt? p d e s).map Substitution.eraseMData

/-- It is enough to look at terms under their metadata. -/
theorem matchesErased_of_bare {p : Expr} (h : ∀ d e s, (∀ m e', e ≠ .mdata m e') →
    matchAt? p d e.eraseMData s.eraseMData = (matchAt? p d e s).map Substitution.eraseMData) :
    MatchesErased p := by
  intro d e s
  rw [← Expr.eraseMData_stripMData, ← matchAt?_stripMData _ _ e]
  exact h d _ s (Expr.stripMData_ne_mdata e)

theorem bind_eraseMData {o : Option Substitution} {p : Expr} (h : MatchesErased p) (d : UInt32)
    (e : Expr) : (o.map Substitution.eraseMData).bind (matchAt? p d e.eraseMData) =
      (o.bind (matchAt? p d e)).map Substitution.eraseMData := by
  cases o with
  | none => rfl
  | some s => exact h d e s

open Pinpoint.Expr in
/-- Without metadata, a term is matched with the values without metadata. -/
theorem matchAt?_eraseMData (p : Expr) : MatchesErased p := by
  induction p with
  | mdata m p ih =>
    intro d e s
    simpa only [matchAt?] using ih d e s
  | bvar i =>
    intro d e s
    -- A value is stored without the metadata around it, and without the metadata in it
    -- if the term has none.
    have hloose : e.eraseMData.hasLooseBVars = e.stripMData.hasLooseBVars := by
      rw [← eraseMData_stripMData, hasLooseBVars_eraseMData]
    have hbound := eraseMData_eq_leaf (a := .bvar i) (e := e) trivial
    simp only [matchAt?, stripMData_eraseMData, hloose, hbound]
    split
    · split
      · rfl
      · rw [← eraseMData_stripMData]
        exact s.bind?_eraseMData _ _
    · split <;> rfl
  | app pf pa ihf iha =>
    -- A pattern that is no variable looks under the metadata of the term, so a term
    -- without any around it is enough; only one of the same form is matched.
    refine matchesErased_of_bare fun d e s hbare => ?_
    cases e with
    | app f a =>
      simp only [matchAt?, eraseMData, stripMData, ihf d f s]
      exact bind_eraseMData iha d a
    | mdata m e => exact absurd rfl (hbare m e)
    | _ => rfl
  | lam i pt pb iht ihb =>
    refine matchesErased_of_bare fun d e s hbare => ?_
    cases e with
    | lam j t b =>
      simp only [matchAt?, eraseMData, stripMData, iht d t s]
      exact bind_eraseMData ihb (d + 1) b
    | mdata m e => exact absurd rfl (hbare m e)
    | _ => rfl
  | pi i pt pb iht ihb =>
    refine matchesErased_of_bare fun d e s hbare => ?_
    cases e with
    | pi j t b =>
      simp only [matchAt?, eraseMData, stripMData, iht d t s]
      exact bind_eraseMData ihb (d + 1) b
    | mdata m e => exact absurd rfl (hbare m e)
    | _ => rfl
  | letE pt pv pb iht ihv ihb =>
    refine matchesErased_of_bare fun d e s hbare => ?_
    cases e with
    | letE t v b =>
      simp only [matchAt?, eraseMData, stripMData, iht d t s, bind_eraseMData ihv d v]
      exact bind_eraseMData ihb (d + 1) b
    | mdata m e => exact absurd rfl (hbare m e)
    | _ => rfl
  | sort l =>
    refine matchesErased_of_bare fun d e s hbare => ?_
    cases e with
    | sort l' =>
      simp only [matchAt?, eraseMData, stripMData]
      split <;> rfl
    | mdata m e => exact absurd rfl (hbare m e)
    | _ => rfl
  | const n ls =>
    refine matchesErased_of_bare fun d e s hbare => ?_
    cases e with
    | const n' ls' =>
      simp only [matchAt?, eraseMData, stripMData]
      split <;> rfl
    | mdata m e => exact absurd rfl (hbare m e)
    | _ => rfl
  | fvar x =>
    intro d e s
    have hfree := eraseMData_eq_leaf (a := .fvar x) (e := e) trivial
    simp only [matchAt?, stripMData_eraseMData, eq_comm (a := Expr.fvar x), hfree]
    split <;> rfl
  | lit l =>
    intro d e s
    have hlit := eraseMData_eq_leaf (a := .lit l) (e := e) trivial
    simp only [matchAt?, stripMData_eraseMData, eq_comm (a := Expr.lit l), hlit]
    split <;> rfl

/-! ### Candidates -/

namespace Rule

variable {r : Rule} {e : Expr} {limit : Option Nat}

theorem match?_eraseMData (r : Rule) (e : Expr) :
    r.match? e.eraseMData = (r.match? e).map Substitution.eraseMData := by
  have hunbound : Substitution.eraseMData (r.varTypes.map fun _ => none) =
      r.varTypes.map fun _ => none := by
    simp [Substitution.eraseMData]
  have h := matchAt?_eraseMData r.pattern 0 e (r.varTypes.map fun _ => none)
  rwa [hunbound] at h

theorem candidate?_eraseMData (r : Rule) (e : Expr) (π : Path) :
    r.candidate? e.eraseMData π = (r.candidate? e π).map Match.eraseMData := by
  unfold candidate?
  rw [Expr.subterm?_eraseMData]
  cases e.subterm? π with
  | none => rfl
  | some t =>
    simp only [Option.map_some, Option.bind_some, Expr.hasLooseBVars_eraseMData, match?_eraseMData]
    split
    · rfl
    · cases r.match? t <;> rfl

/-- A term without metadata has the candidates of the term, without metadata. -/
theorem candidatesWithin_eraseMData (r : Rule) (limit : Option Nat) (e : Expr) :
    r.candidatesWithin limit e.eraseMData = (r.candidatesWithin limit e).map Match.eraseMData := by
  unfold candidatesWithin candidates
  rw [Expr.positions_eraseMData, funext (r.candidate?_eraseMData e), ← List.map_filterMap,
    List.filter_map]
  rfl

end Rule

/-! ### Types of the values -/

namespace Substitution

variable {s s' : Substitution}

theorem dependsOnUnbound_eraseMData (type : Expr) (s : Substitution) :
    dependsOnUnbound type s.eraseMData = dependsOnUnbound type s := by
  simp [dependsOnUnbound, eraseMData, ← List.map_reverse, List.zipIdx_map, List.any_map,
    Function.comp_def]

/-- Values that are the same up to metadata make a type the same type up to
metadata. -/
theorem clean_instantiateRev_congr (h : s.eraseMData = s'.eraseMData) (type : Expr) :
    Cleaning.dropMData.clean (type.instantiateRev (s.map fun v => v.getD .prop)) =
      Cleaning.dropMData.clean (type.instantiateRev (s'.map fun v => v.getD .prop)) := by
  have hclean : ∀ s : Substitution, (s.map fun v => v.getD .prop).map Cleaning.dropMData.clean =
      s.eraseMData.map fun v => v.getD .prop := by
    intro s
    rw [eraseMData, List.map_map, List.map_map]
    refine List.map_congr_left fun v _ => ?_
    cases v with
    | none => rfl
    | some v => exact Cleaning.dropMData_clean v
  exact Cleaning.clean_instantiateRev_congr type (by rw [hclean, hclean, h])

end Substitution

open Environment in
/-- Values that are the same up to metadata have the types of their variables, or
neither have them. -/
theorem valuesHaveTypes_agree {env : Environment} {Γ : LocalContext} {m n : Nat} {types : List Expr}
    {earlier earlier' values values' : Substitution}
    (hearlier : earlier.eraseMData = earlier'.eraseMData)
    (hvalues : values.eraseMData = values'.eraseMData) :
    Supply.Agree (· = ·) (valuesHaveTypes ⟨env, Γ, m⟩ earlier types values)
      (valuesHaveTypes ⟨env, Γ, n⟩ earlier' types values') := by
  induction types generalizing earlier earlier' values values' with
  | nil =>
    rw [valuesHaveTypes, valuesHaveTypes]
    · exact .pure rfl
    · simp
    · simp
  | cons type types ih =>
    rcases values with _ | ⟨v, values⟩ <;> rcases values' with _ | ⟨v', values'⟩
    · exact .pure rfl
    · cases hvalues
    · cases hvalues
    obtain ⟨hv, hvalues⟩ := List.cons.inj hvalues
    have hnext : Substitution.eraseMData (earlier ++ [v]) =
        Substitution.eraseMData (earlier' ++ [v']) := by
      simp only [Substitution.eraseMData, List.map_append, List.map_singleton, hv]
      exact congrArg (· ++ _) hearlier
    -- the values after this one, once it is known whether it fits
    have hrest : ∀ {c c' : Supply Bool}, Supply.Agree (· = ·) c c' →
        Supply.Agree (· = ·) (c >>= fun fits =>
            if fits then valuesHaveTypes ⟨env, Γ, m⟩ (earlier ++ [v]) types values else pure false)
          (c' >>= fun fits =>
            if fits then valuesHaveTypes ⟨env, Γ, n⟩ (earlier' ++ [v']) types values'
            else pure false) := by
      refine fun hc => hc.bind fun fits fits' hfits => ?_
      subst hfits
      split
      · exact ih hnext hvalues
      · exact .pure rfl
    rcases v with _ | v <;> rcases v' with _ | v'
    · exact hrest (.pure rfl)
    · cases hv
    · cases hv
    have hv : Cleaning.dropMData.clean v = Cleaning.dropMData.clean v' := by
      rw [Cleaning.dropMData_clean, Cleaning.dropMData_clean]
      exact Option.some.inj hv
    have hdepends : dependsOnUnbound type earlier = dependsOnUnbound type earlier' := by
      rw [← Substitution.dependsOnUnbound_eraseMData, hearlier,
        Substitution.dependsOnUnbound_eraseMData]
    rw [valuesHaveTypes, valuesHaveTypes, hdepends]
    split
    · exact hrest (.pure rfl)
    · refine .bind (inferType_agree (fun _ => rfl) hv) fun T T' hT => ?_
      cases T <;> cases T'
      · exact hrest (.pure rfl)
      · cases hT
      · cases hT
      · exact hrest (.lift fun r r' hr hr' => Decides.of_alike (alike_of_dropMData hT)
          (alike_of_dropMData (Substitution.clean_instantiateRev_congr hearlier type))
          ⟨_, hr⟩ ⟨_, hr'⟩)

/-! ### Searches -/

theorem Supply.keep_agree {α β : Type} {test test' : α → Supply Bool} {f : α → β}
    (htest : ∀ a b, f a = f b → Agree (· = ·) (test a) (test' b)) {as bs : List α}
    (h : as.map f = bs.map f) :
    Agree (fun xs ys => xs.map f = ys.map f) (keep test as) (keep test' bs) := by
  induction as generalizing bs with
  | nil =>
    obtain rfl := List.map_eq_nil_iff.mp h.symm
    exact .pure rfl
  | cons a as ih =>
    cases bs with
    | nil => cases h
    | cons b bs =>
      obtain ⟨hab, hrest⟩ := List.cons.inj h
      refine .bind (htest a b hab) fun accepted accepted' haccepted => ?_
      refine .bind (ih hrest) fun xs ys hxy => .pure ?_
      subst haccepted
      cases accepted with
      | true => simp only [if_true, List.map_cons, hab, hxy]
      | false => exact hxy

open Environment in
/-- Metadata is transparent to typing, comparing and matching.  Of terms that are
the same up to metadata, whenever what is asked about both of them ends:
* both have types, which are the same up to metadata, or neither has one;
* every third term compares with both alike, at every transparency;
* every rule occurs in both at the same paths, in the same order, and with the same
  values up to metadata.
The checker also draws as many variables for one as for the other. -/
theorem eraseMData_transparent {env : Environment} {Γ : LocalContext} {e e' : Expr}
    (h : e.eraseMData = e'.eraseMData) :
    (∀ (m n : Nat) s r t r' t', (env.inferType m Γ e).run.run s = some (r, t) →
      (env.inferType n Γ e').run.run s = some (r', t') →
        CheckM.Related (fun T T' => T.eraseMData = T'.eraseMData) r r' ∧ t = t') ∧
    (∀ t f r r', env.Decides t e f r → env.Decides t e' f r' → r = r') ∧
    (∀ (rule : Rule) limit (m n : Nat) s found t found' t',
      (rule.findMatches ⟨env, Γ, m⟩ e limit).run s = some (found, t) →
      (rule.findMatches ⟨env, Γ, n⟩ e' limit).run s = some (found', t') →
        found.map Match.eraseMData = found'.map Match.eraseMData ∧ t = t') := by
  have hclean : Cleaning.dropMData.clean e = Cleaning.dropMData.clean e' := by
    rw [Cleaning.dropMData_clean, Cleaning.dropMData_clean, h]
  refine ⟨fun m n => ?_, fun t f r r' => ?_, fun rule limit m n => ?_⟩
  · have hagree : CheckM.Agree _ (env.inferType m Γ e) (env.inferType n Γ e') :=
      inferType_agree (fun _ => rfl) hclean
    simp only [Cleaning.dropMData_clean] at hagree
    exact hagree
  · exact Decides.of_alike (Expr.skeleton_eq_of_eraseMData_eq h) rfl
  · rw [Rule.findMatches_eq_keep, Rule.findMatches_eq_keep]
    refine Supply.keep_agree (f := Match.eraseMData) (fun a b hab => ?_) ?_
    · exact valuesHaveTypes_agree rfl (congrArg Match.subst hab)
    · rw [← Rule.candidatesWithin_eraseMData, h, Rule.candidatesWithin_eraseMData]

namespace Wrapped

/-- The identity of the natural numbers, whose domain is spelled as given, applied to a
number. -/
def identity (nat : Expr) : Expr := .app (.lam .default nat (.bvar 0)) (.lit (.nat 3))

/-- The natural numbers. -/
def nat : Expr := .const Vocabulary.nat []

/-- An environment in which they are declared. -/
def env : Environment := ⟨[⟨Vocabulary.nat, [], .type, none⟩]⟩

/-- The natural numbers, with a remark. -/
def remarked : Expr := .mdata [(.simple "remark", .bool true)] nat

end Wrapped

open Wrapped in
/-- A remark on the domain of a function comes back in the type of its values, and makes
no other difference. -/
theorem eraseMData_transparent_domain :
    identity remarked ≠ identity nat ∧ remarked.eraseMData = nat.eraseMData ∧
      ∀ f r r', env.Decides .all (identity remarked) f r →
        env.Decides .all (identity nat) f r' → r = r' := by
  have hsame : (identity remarked).eraseMData = (identity nat).eraseMData := by decide
  have h := @eraseMData_transparent env .empty _ _ hsame
  have htype : (env.inferType 8 .empty (identity remarked)).run.run 0 =
      some (.ok remarked, 1) := by rfl
  have htype' : (env.inferType 8 .empty (identity nat)).run.run 0 =
      some (.ok nat, 1) := by rfl
  have hrelated := (h.1 8 8 0 _ _ _ _ htype htype').1
  exact ⟨by decide, hrelated, h.2.1 .all⟩

end Pinpoint
