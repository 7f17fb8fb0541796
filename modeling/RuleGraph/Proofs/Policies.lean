import RuleGraph.Proofs.FirstFaults
import RuleGraph.Proofs.Names

/-!
# What policies refuse

The rule of known operations refuses an expression exactly if one of its operation names is unknown,
and leads to the first such operation, depth first and left to right. The rule of study rules looks
at the name and the first argument only. A composed policy is the list of its rules, left to right,
however they are nested: a document is refused exactly if one of them refuses one of its
expressions, and the earliest expression counts before the earliest rule.
-/

namespace RuleGraph

/-! ## Study rules -/

theorem checkStudyRule_eq_ok {index : Nat} {e : Expression} :
    checkStudyRule index e = .ok () ↔ e.name = "IFTHEN" ∧
      ∃ arguments rest, e.arguments = .nested "checkEventType" arguments :: rest := by
  rw [checkStudyRule]
  by_cases hname : e.name = "IFTHEN"
  · rw [if_pos hname]
    cases harguments : e.arguments with
    | nil => simp [hname]
    | cons condition rest =>
        cases condition with
        | literal value => simp [Argument.expression?, hname]
        | nested name arguments =>
            by_cases hcondition : name = "checkEventType" <;>
              simp [Argument.expression?, hname, hcondition]
  · rw [if_neg hname]
    simp [hname]

/-- The error leads to the expression where it is no rule, and to its condition otherwise. -/
theorem checkStudyRule_eq_error {index : Nat} {e : Expression} {error : DocumentError} :
    checkStudyRule index e = .error error ↔
      e.name ≠ "IFTHEN" ∧ error = .invalidExpression [index] (.notARule e.name) ∨
      e.name = "IFTHEN" ∧
        ((∃ name arguments rest, e.arguments = .nested name arguments :: rest ∧
            name ≠ "checkEventType" ∧
            error = .invalidExpression [index, 0] (.wrongCondition name)) ∨
          (∀ name arguments rest, e.arguments ≠ .nested name arguments :: rest) ∧
            error = .invalidExpression [index, 0] .noCondition) := by
  rw [checkStudyRule]
  by_cases hname : e.name = "IFTHEN"
  · rw [if_pos hname]
    cases harguments : e.arguments with
    | nil => simp [hname, @eq_comm _ error]
    | cons condition rest =>
        cases condition with
        | literal value => simp [Argument.expression?, hname, @eq_comm _ error]
        | nested name arguments =>
            by_cases hcondition : name = "checkEventType" <;>
              simp [Argument.expression?, hname, hcondition, @eq_comm _ error]
  · rw [if_neg hname]
    simp [hname, @eq_comm _ error]

/-! ## Known operations -/

namespace Argument

def Unknown (registry : Registry) (a : Argument) (defect : Defect) : Prop :=
  ∃ name arguments, a = .nested name arguments ∧ registry.contains name = false ∧
    defect = .unknownOperation name

variable {registry : Registry}

theorem Unknown.unique (a : Argument) (d d' : Defect) (h : Unknown registry a d)
    (h' : Unknown registry a d') : d = d' := by
  obtain ⟨name, arguments, rfl, _, rfl⟩ := h
  obtain ⟨_, _, hsame, _, rfl⟩ := h'
  cases hsame
  rfl

theorem checkKnownAll_eq (registry : Registry) (path : List Nat) (position : Nat)
    (arguments : List Argument) :
    checkKnownAll registry path position arguments =
      checkEach (fun i => checkKnown registry (path ++ [i])) position arguments := by
  induction arguments generalizing position with
  | nil => rfl
  | cons first rest ih =>
      cases hfirst : checkKnown registry (path ++ [position]) first <;>
        simp [checkKnownAll, checkEach, hfirst, ih]

theorem reports_checkKnown (registry : Registry) (a : Argument) (base : List Nat) :
    Reports (BadAt (Unknown registry) a.at?) base (checkKnown registry base a) := by
  induction a generalizing base with
  | literal value =>
      exact .sound fun path defect h => by simp [badAt_literal, Unknown] at h
  | nested name arguments ih =>
      rw [checkKnown]
      by_cases hname : registry.contains name = true
      · rw [if_pos hname, checkKnownAll_eq]
        refine (Reports.check (fun a ha i => ih a ha (base ++ [i])) 0).congr fun path defect => ?_
        have hknown : ¬Unknown registry (.nested name arguments) defect := by
          rintro ⟨_, _, hsame, hunknown, _⟩
          cases hsame
          simp [hname] at hunknown
        simp [badAt_nested, hknown]
      · rw [if_neg hname]
        have hbad : Unknown registry (.nested name arguments) (.unknownOperation name) :=
          ⟨name, arguments, rfl, by simpa using hname, rfl⟩
        exact .here (badAt_nested.mpr (Or.inl ⟨rfl, hbad⟩))

end Argument

namespace Expression

variable {registry : Registry} {e : Expression}

theorem mem_names_iff {name : String} :
    name ∈ e.names ↔ ∃ path f, (Argument.ofExpression e).at? path = some (.ofExpression f) ∧
      f.name = name := by
  have hnames : e.names = (Argument.ofExpression e).operations.map fun entry => entry.2.name :=
    (Argument.ofExpression e).names_eq
  rw [hnames, List.mem_map]
  constructor
  · rintro ⟨⟨path, f⟩, hmem, hname⟩
    exact ⟨path, f, Argument.mem_operations.mp hmem, hname⟩
  · rintro ⟨path, f, hat, hname⟩
    exact ⟨(path, f), Argument.mem_operations.mpr hat, hname⟩

/-- The path leads to an operation that is not known, and every other such operation stands later in
the expression, depth first and left to right. -/
structure FirstUnknown (registry : Registry) (e : Expression) (path : List Nat) (f : Expression) :
    Prop where
  leads : (Argument.ofExpression e).at? path = some (.ofExpression f)
  unknown : registry.contains f.name = false
  first : ∀ other g, (Argument.ofExpression e).at? other = some (.ofExpression g) →
    registry.contains g.name = false → path ≤ other

theorem firstFault_unknown_iff {path : List Nat} {defect : Defect} :
    FirstFault (BadAt (Argument.Unknown registry) (Argument.ofExpression e).at?) path defect ↔
      ∃ f, defect = .unknownOperation f.name ∧ e.FirstUnknown registry path f := by
  constructor
  · intro h
    obtain ⟨_, hat, name, arguments, rfl, hf, rfl⟩ := h.fault
    refine ⟨⟨name, arguments⟩, rfl, hat, hf, ?_⟩
    exact fun other g hat hg => h.first other _ ⟨_, hat, g.name, g.arguments, rfl, hg, rfl⟩
  · rintro ⟨f, rfl, h⟩
    refine ⟨⟨_, h.leads, f.name, f.arguments, rfl, h.unknown, rfl⟩, ?_⟩
    rintro other d ⟨_, hat, name, arguments, rfl, hg, _⟩
    exact h.first other ⟨name, arguments⟩ hat hg

end Expression

namespace Policy

/-- The rule accepts an expression exactly if all of its operation names are known. Its error leads
to the first operation whose name is not, and gives the name. -/
theorem knownOperations_refuses_first (registry : Registry) (index : Nat) (e : Expression) :
    ((knownOperations registry).check index e = .ok () ↔
      ∀ name ∈ e.names, registry.contains name = true) ∧
    (∀ error, (knownOperations registry).check index e = .error error ↔
      ∃ path f, error = .invalidExpression (index :: path) (.unknownOperation f.name) ∧
        e.FirstUnknown registry path f) ∧
    ∀ name, (Defect.unknownOperation name).message = "unknown operation '" ++ name ++ "'" := by
  have hreport : Reports (BadAt (Argument.Unknown registry) (Argument.ofExpression e).at?) [index]
      ((knownOperations registry).check index e) :=
    Argument.reports_checkKnown registry (.ofExpression e) [index]
  refine ⟨?_, fun error => ?_, fun name => rfl⟩
  · have hok : (knownOperations registry).check index e = .ok () ↔
        ∃ b, (knownOperations registry).check index e = .ok b :=
      ⟨fun h => ⟨(), h⟩, fun h => h.choose_spec⟩
    rw [hok, hreport.exists_ok_iff]
    constructor
    · intro h name hname
      obtain ⟨path, f, hat, rfl⟩ := Expression.mem_names_iff.mp hname
      by_contra hunknown
      exact h path _ ⟨_, hat, f.name, f.arguments, rfl, by simpa using hunknown, rfl⟩
    · rintro h path defect ⟨_, hat, name, arguments, rfl, hunknown, _⟩
      have hknown := h name (Expression.mem_names_iff.mpr ⟨path, ⟨name, arguments⟩, hat, rfl⟩)
      simp [hknown] at hunknown
  · rw [hreport.eq_error_iff (BadAt.unique Argument.Unknown.unique)]
    constructor
    · rintro ⟨path, defect, herror, hfirst⟩
      obtain ⟨f, rfl, hf⟩ := Expression.firstFault_unknown_iff.mp hfirst
      exact ⟨path, f, herror, hf⟩
    · rintro ⟨path, f, herror, hf⟩
      exact ⟨path, _, herror, Expression.firstFault_unknown_iff.mpr ⟨f, rfl, hf⟩⟩

/-! ## Composed policies -/

mutual

/-- The rules that a policy is composed of, left to right. -/
def leaves : Policy → List Policy
  | .studyRule => [.studyRule]
  | .knownOperations registry => [.knownOperations registry]
  | .custom rule => [.custom rule]
  | .all policies => leavesAll policies

def leavesAll : List Policy → List Policy
  | [] => []
  | policy :: rest => policy.leaves ++ leavesAll rest

end

/-- Induction over the policies in a composed one, all of them at once. -/
@[elab_as_elim]
theorem induct {motive : Policy → Prop} (studyRule : motive .studyRule)
    (knownOperations : ∀ registry, motive (.knownOperations registry))
    (custom : ∀ rule, motive (.custom rule))
    (all : ∀ policies, (∀ policy ∈ policies, motive policy) → motive (.all policies))
    (policy : Policy) : motive policy :=
  match policy with
  | .studyRule => studyRule
  | .knownOperations registry => knownOperations registry
  | .custom rule => custom rule
  | .all policies =>
    all policies fun policy _ => induct studyRule knownOperations custom all policy

variable {policy : Policy} {document : Document} {index : Nat} {e : Expression}
  {error : DocumentError}

theorem leavesAll_eq (policies : List Policy) : leavesAll policies = policies.flatMap leaves := by
  induction policies with
  | nil => rfl
  | cons first rest ih => rw [leavesAll, ih, List.flatMap_cons]

@[simp] theorem leaves_all (policies : List Policy) :
    (all policies).leaves = policies.flatMap leaves :=
  leavesAll_eq policies

/-- A rule is composed of itself alone. -/
theorem leaves_of_mem_leaves : ∀ leaf ∈ policy.leaves, leaf.leaves = [leaf] := by
  induction policy using induct with
  | studyRule => simp [leaves]
  | knownOperations registry => simp [leaves]
  | custom rule => simp [leaves]
  | all policies ih =>
      intro leaf hleaf
      rw [leaves_all, List.mem_flatMap] at hleaf
      obtain ⟨policy, hpolicy, hmem⟩ := hleaf
      exact ih policy hpolicy leaf hmem

theorem leaves_all_leaves (policy : Policy) : (all policy.leaves).leaves = policy.leaves := by
  rw [leaves_all, List.flatMap_congr leaves_of_mem_leaves, List.flatMap_singleton']

/-! ## Checking -/

theorem checkPolicies_eq (index : Nat) (e : Expression) (position : Nat) (policies : List Policy) :
    checkPolicies index e policies =
      checkEach (fun _ policy => policy.check index e) position policies := by
  induction policies generalizing position with
  | nil => rfl
  | cons first rest ih =>
      cases hfirst : first.check index e <;>
        simp [checkPolicies, checkEach, hfirst, ← ih (position + 1)]

theorem checkPolicies_append (index : Nat) (e : Expression) (policies others : List Policy) :
    checkPolicies index e (policies ++ others) =
      match checkPolicies index e policies with
      | .error e => .error e
      | .ok () => checkPolicies index e others := by
  induction policies with
  | nil => rfl
  | cons first rest ih =>
      rw [List.cons_append, checkPolicies, checkPolicies, ih]
      cases first.check index e <;> rfl

theorem checkPolicies_singleton (index : Nat) (e : Expression) (policy : Policy) :
    checkPolicies index e [policy] = policy.check index e := by
  rw [checkPolicies]
  cases policy.check index e <;> rfl

/-- However its rules are nested, a policy checks them from left to right. -/
theorem check_eq_leaves (index : Nat) (e : Expression) (policy : Policy) :
    policy.check index e = checkPolicies index e policy.leaves := by
  induction policy using induct with
  | studyRule => exact (checkPolicies_singleton index e _).symm
  | knownOperations registry => exact (checkPolicies_singleton index e _).symm
  | custom rule => exact (checkPolicies_singleton index e _).symm
  | all policies ih =>
      rw [check, leaves_all]
      induction policies with
      | nil => rfl
      | cons first rest ihrest =>
          have hfirst := ih first List.mem_cons_self
          have hrest := ihrest fun policy hpolicy => ih policy (List.mem_cons_of_mem _ hpolicy)
          rw [List.flatMap_cons, checkPolicies_append, ← hfirst, ← hrest]
          cases hcheck : first.check index e <;> simp [checkPolicies, hcheck]

theorem check_eq_ok :
    policy.check index e = .ok () ↔ ∀ leaf ∈ policy.leaves, leaf.check index e = .ok () := by
  rw [check_eq_leaves, checkPolicies_eq index e 0, checkEach_eq_ok]
  constructor
  · intro h leaf hleaf
    obtain ⟨k, hk⟩ := List.mem_iff_getElem?.mp hleaf
    exact h k leaf hk
  · intro h k leaf hk
    exact h leaf (List.mem_of_getElem? hk)

theorem check_eq_error :
    policy.check index e = .error error ↔
      ∃ (k : Nat) (leaf : Policy), policy.leaves[k]? = some leaf ∧
        leaf.check index e = .error error ∧ ∀ l < k, ∀ other : Policy,
          policy.leaves[l]? = some other → other.check index e = .ok () := by
  rw [check_eq_leaves, checkPolicies_eq index e 0, checkEach_eq_error]

theorem checkDocument_eq (policy : Policy) (index : Nat) (document : Document) :
    policy.checkDocument index document =
      checkEach (fun i e => policy.check i e) index document := by
  induction document generalizing index with
  | nil => rfl
  | cons e rest ih =>
      cases hfirst : policy.check index e <;> simp [checkDocument, checkEach, hfirst, ih]

theorem checkDocument_congr {other : Policy} (h : other.leaves = policy.leaves) (index : Nat)
    (document : Document) :
    other.checkDocument index document = policy.checkDocument index document := by
  have hcheck : ∀ i e, other.check i e = policy.check i e := fun i e => by
    rw [check_eq_leaves, check_eq_leaves i e policy, h]
  simp only [checkDocument_eq, hcheck]

theorem checkDocument_eq_ok :
    policy.checkDocument 0 document = .ok () ↔
      ∀ index e, document[index]? = some e → ∀ leaf ∈ policy.leaves,
        leaf.check index e = .ok () := by
  simp only [checkDocument_eq, checkEach_eq_ok, Nat.zero_add]
  constructor
  · intro h index e he
    exact check_eq_ok.mp (h index e he)
  · intro h index e he
    exact check_eq_ok.mpr (h index e he)

/-- The rule at a position of the policy refuses the expression at an index, with this error. All
rules accept all earlier expressions, and all earlier rules accept this one. -/
structure FirstRefusal (policy : Policy) (document : Document) (index position : Nat)
    (error : DocumentError) : Prop where
  refused : ∃ e leaf, document[index]? = some e ∧ policy.leaves[position]? = some leaf ∧
    leaf.check index e = .error error
  first : ∀ i k e leaf, i < index ∨ i = index ∧ k < position → document[i]? = some e →
    policy.leaves[k]? = some leaf → leaf.check i e = .ok ()

theorem checkDocument_eq_error :
    policy.checkDocument 0 document = .error error ↔
      ∃ index position, policy.FirstRefusal document index position error := by
  simp only [checkDocument_eq, checkEach_eq_error, Nat.zero_add]
  constructor
  · rintro ⟨index, e, he, hfails, hbefore⟩
    obtain ⟨position, leaf, hleaf, herror, hearlier⟩ := check_eq_error.mp hfails
    refine ⟨index, position, ⟨e, leaf, he, hleaf, herror⟩, ?_⟩
    intro i k f other horder hf hother
    rcases horder with hlt | ⟨rfl, hk⟩
    · exact check_eq_ok.mp (hbefore i hlt f hf) other (List.mem_of_getElem? hother)
    · have hsame : e = f := by simpa [he] using hf
      exact hsame ▸ hearlier k hk other hother
  · rintro ⟨index, position, ⟨e, leaf, he, hleaf, herror⟩, hfirst⟩
    refine ⟨index, e, he, check_eq_error.mpr ⟨position, leaf, hleaf, herror, ?_⟩, ?_⟩
    · intro k hk other hother
      exact hfirst index k e other (Or.inr ⟨rfl, hk⟩) he hother
    · intro i hi f hf
      refine check_eq_ok.mpr fun other hother => ?_
      obtain ⟨k, hk⟩ := List.mem_iff_getElem?.mp hother
      exact hfirst i k f other (Or.inl hi) hf hk

end Policy

namespace Document

theorem ofJsonUnder_of_ok {policy : Policy} {v : Json} {document : Document}
    (h : ofJson v = .ok document) :
    ofJsonUnder policy v = (policy.checkDocument 0 document).map fun _ => document := by
  rw [ofJsonUnder, h]
  dsimp only
  cases policy.checkDocument 0 document <;> rfl

theorem ofJsonUnder_congr {policy other : Policy} (h : other.leaves = policy.leaves) (v : Json) :
    ofJsonUnder other v = ofJsonUnder policy v := by
  simp only [ofJsonUnder, Policy.checkDocument_congr h]

/-- A value is accepted as a document of study rules if it holds a document that consists of study
rules. -/
theorem ofJsonUnder_studyRule {v : Json} {document : Document} :
    ofJsonUnder .studyRule v = .ok document ↔ ofJson v = .ok document ∧
      ∀ e ∈ document, e.name = "IFTHEN" ∧
        ∃ arguments rest, e.arguments = .nested "checkEventType" arguments :: rest := by
  rw [ofJsonUnder_eq_ok, Policy.checkDocument_eq_ok]
  simp only [Policy.leaves, List.mem_singleton, forall_eq, Policy.check, checkStudyRule_eq_ok]
  simp only [List.mem_iff_getElem?, forall_exists_index]
  exact and_congr_right fun _ => forall_comm

/-- A value that holds no document is refused with the error of reading it, whatever the policy. A
document is accepted as it is exactly if every rule accepts every expression; it is refused with the
error of the first rule that refuses the first refused expression. How the rules are nested does not
matter, nor do compositions of no rules. -/
theorem ofJsonUnder_refuses_first (policy : Policy) (v : Json) :
    (∀ error, ofJson v = .error error → ofJsonUnder policy v = .error error) ∧
    (∀ document, ofJson v = .ok document →
      (∀ found, ofJsonUnder policy v = .ok found ↔
        found = document ∧ ∀ index e, document[index]? = some e → ∀ leaf ∈ policy.leaves,
          leaf.check index e = .ok ()) ∧
      (∀ error, ofJsonUnder policy v = .error error ↔
        ∃ index position, policy.FirstRefusal document index position error)) ∧
    (∀ other : Policy, other.leaves = policy.leaves → ofJsonUnder other v = ofJsonUnder policy v) ∧
    ofJsonUnder (.all policy.leaves) v = ofJsonUnder policy v ∧
    ∀ before inner after : List Policy, ofJsonUnder (.all (before ++ .all inner :: after)) v =
      ofJsonUnder (.all (before ++ (inner ++ after))) v := by
  refine ⟨?_, ?_, fun other h => ofJsonUnder_congr h v,
    ofJsonUnder_congr policy.leaves_all_leaves v, ?_⟩
  · intro error h
    rw [ofJsonUnder, h]
  · intro document h
    rw [ofJsonUnder_of_ok h]
    constructor
    · intro found
      rw [← Policy.checkDocument_eq_ok]
      cases policy.checkDocument 0 document <;> simp [Except.map, eq_comm]
    · intro error
      rw [← Policy.checkDocument_eq_error]
      cases policy.checkDocument 0 document <;> simp [Except.map]
  · intro before inner after
    apply ofJsonUnder_congr
    simp

/-- Both rules refuse the second expression, each with an error of its own. The rule that comes
first in the nested composition counts, as it does in the flat one. -/
theorem ofJsonUnder_refuses_nested :
    let registry := (Registry.empty.register ⟨"IFTHEN", .flowControl, [], .variadic 0, 0⟩).register
      ⟨"checkEventType", .logical, [], .variadic 0, 0⟩
    let policy : Policy := .all [.all [], .all [.knownOperations registry, .all [.studyRule]]]
    let flat : Policy := .all [.knownOperations registry, .studyRule]
    let condition : Json := .object [("dtype", .string "exp"),
      ("exp", .object [("name", .string "checkEventType")])]
    let v : Json := .array [.object [("name", .string "IFTHEN"), ("data", .array [condition])],
      .object [("name", .string "LOG")]]
    let document : Document := [⟨"IFTHEN", [.nested "checkEventType" []]⟩, ⟨"LOG", []⟩]
    let error : DocumentError := .invalidExpression [1] (.unknownOperation "LOG")
    ofJson v = .ok document ∧ flat.leaves = policy.leaves ∧
      policy.leaves.map (fun leaf => leaf.check 1 ⟨"LOG", []⟩) =
        [.error error, .error (.invalidExpression [1] (.notARule "LOG"))] ∧
      (∃ index position, policy.FirstRefusal document index position error) ∧
      ofJsonUnder policy v = .error error ∧ ofJsonUnder flat v = .error error ∧
      ∃ found, ofJson .null = .error found ∧ ofJsonUnder policy .null = .error found := by
  intro registry policy flat condition v document error
  obtain ⟨_, hdocument, hnesting, _⟩ := ofJsonUnder_refuses_first policy v
  have hrefused : ofJsonUnder policy v = .error error := rfl
  have hread : ofJson v = .ok document := rfl
  have hleaves : flat.leaves = policy.leaves := rfl
  refine ⟨hread, hleaves, rfl, ((hdocument document hread).2 error).mp hrefused, hrefused,
    (hnesting flat hleaves).trans hrefused, _, rfl, ?_⟩
  exact (ofJsonUnder_refuses_first policy .null).1 _ rfl

end Document

end RuleGraph
