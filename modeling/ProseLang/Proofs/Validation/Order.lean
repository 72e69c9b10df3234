import ProseLang.Proofs.Sorting
import ProseLang.Validation.Result

/-!
# Findings in the order of the text

What validation gives is made of the findings by stable sorting alone (`validate_eq`). So fewer
findings leave the order of the others as it is (`ofFindings_filter`), the order in which findings
are made matters for those at one place only (`ofFindings_congr`), and the same findings give the
same up to order (`ofFindings_perm`).
-/

namespace ProseLang

namespace Span

variable {a b c : Span}

/-- Spans are in the order of their starts, and of their ends at the same start. -/
theorem inOrder_iff : a.inOrder b = true ↔ a.start.offset < b.start.offset
    ∨ a.start.offset = b.start.offset ∧ a.stop.offset ≤ b.stop.offset := by
  simp [inOrder]

private theorem inOrder_trans (h : a.inOrder b = true) (h' : b.inOrder c = true) :
    a.inOrder c = true := by
  rw [inOrder_iff] at *
  omega

private theorem inOrder_total (a b : Span) : (a.inOrder b || b.inOrder a) = true := by
  rw [Bool.or_eq_true, inOrder_iff, inOrder_iff]
  omega

end Span

namespace Finding

/-- Whether a finding belongs before another. -/
def inOrder (f g : Finding) : Bool := f.span.inOrder g.span

/-- The order of findings is transitive. -/
theorem inOrder_trans (f g h : Finding) (first : f.inOrder g = true) (second : g.inOrder h = true) :
    f.inOrder h = true := Span.inOrder_trans first second

private theorem inOrder_total (f g : Finding) : (f.inOrder g || g.inOrder f) = true :=
  Span.inOrder_total f.span g.span

end Finding

namespace ValidationResult

/-- The result that is made of some findings. -/
def ofFindings (fs : List Finding) : ValidationResult where
  errors := (fs.mergeSort Finding.inOrder).filter Finding.isError
  warnings := (fs.mergeSort Finding.inOrder).filter (!·.isError)

/-- What is left of a result. -/
def keep (r : ValidationResult) (keep : Finding → Bool) : ValidationResult where
  errors := r.errors.filter keep
  warnings := r.warnings.filter keep

/-- Whether two results have the same findings up to order. -/
structure Similar (r s : ValidationResult) : Prop where
  errors : r.errors.Perm s.errors
  warnings : r.warnings.Perm s.warnings
  findings : r.findings.Perm s.findings

variable {fs gs : List Finding}

/-- The findings that are left are those that are kept. -/
theorem findings_keep (r : ValidationResult) (keep : Finding → Bool) :
    (r.keep keep).findings = r.findings.filter keep := by
  rw [findings, findings, ValidationResult.keep, ← List.filter_append]
  refine mergeSort_filter (fun f g h first second ↦ ?_) (fun f g ↦ ?_) _ keep
  · exact decide_eq_true (Nat.le_trans (of_decide_eq_true first) (of_decide_eq_true second))
  · simpa using Nat.le_total _ _

/-- To keep some findings and then some of these is to keep those that are kept twice. -/
theorem keep_keep (r : ValidationResult) (first second : Finding → Bool) :
    (r.keep first).keep second = r.keep fun f ↦ second f && first f :=
  congrArg₂ mk List.filter_filter List.filter_filter

/-- A result of fewer findings is what is left of the result of all. -/
theorem ofFindings_filter (keep : Finding → Bool) :
    ofFindings (fs.filter keep) = (ofFindings fs).keep keep := by
  rw [ofFindings, mergeSort_filter Finding.inOrder_trans Finding.inOrder_total]
  exact congrArg₂ mk (List.filter_comm _ _ _) (List.filter_comm _ _ _)

/-- The order of findings at different places does not matter to a result. -/
theorem ofFindings_congr
    (same : ∀ f, fs.filter (level Finding.inOrder f) = gs.filter (level Finding.inOrder f)) :
    ofFindings fs = ofFindings gs := by
  rw [ofFindings, ofFindings, mergeSort_congr Finding.inOrder_trans Finding.inOrder_total same]

/-- The order of findings matters to a result up to order only. -/
theorem ofFindings_perm (h : fs.Perm gs) : (ofFindings fs).Similar (ofFindings gs) := by
  have sorted : (fs.mergeSort Finding.inOrder).Perm (gs.mergeSort Finding.inOrder) :=
    (List.mergeSort_perm fs _).trans (h.trans (List.mergeSort_perm gs _).symm)
  have errors := sorted.filter Finding.isError
  have warnings := sorted.filter (!·.isError)
  refine ⟨errors, warnings, ?_⟩
  exact (List.mergeSort_perm _ _).trans
    ((errors.append warnings).trans (List.mergeSort_perm _ _).symm)

end ValidationResult

/-- Validation is the result that is made of what is found. -/
theorem validate_eq (p : Program) (o : ValidatorOptions) (e : Enumeration) :
    validate p o e = .ofFindings (rawFindings p o e) := rfl

end ProseLang
