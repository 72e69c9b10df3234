import ProseLang.Proofs.Grammar.Wording
import ProseLang.Proofs.Validation.Order
import ProseLang.Proofs.Validation.Tandem

/-!
# The order in which scopes tell their symbols

When a scope is closed, its unused bindings are found in whatever order the scope tells its symbols.
Validation sorts what is found by its place. In a program that was read from a text, two bindings of
one scope have different names, so they are written at different places, and their order is that of
the text (`validate_enumeration`).
-/

namespace ProseLang

variable {source : String}

/-- What is written at one place is one text. -/
theorem Span.Says.unique {s t : Span} {text other : String} (h : s.Says source text)
    (h' : t.Says source other) (start : s.start.offset = t.start.offset)
    (stop : s.stop.offset = t.stop.offset) : text = other := by
  rw [Says, start, stop] at h
  exact String.toList_inj.1 (Option.some.inj (h.symm.trans h'))

private theorem Finding.level_iff {f g : Finding} : level inOrder f g = true
    ↔ f.span.start.offset = g.span.start.offset ∧ f.span.stop.offset = g.span.stop.offset := by
  rw [ProseLang.level_iff, inOrder, inOrder, Span.inOrder_iff, Span.inOrder_iff]
  omega

/-- The name of a let or const binding is written where it stands. -/
theorem bind_parse (source : String) :
    Bind (fun x ↦ x.span.Says source x.val) (parse source).program.visits := by
  intro v member x name
  have leaf : Leaf.name x ∈ v.leaves := by
    match v, name with
    | .statement (.binding _ b), name =>
      exact List.mem_singleton.2 (congrArg _ (Option.some.inj name).symm)
  exact Leaf.isWritten_of_isRead
    (leaves_parseTokens (tokenize source).tokens _ (List.mem_flatMap.2 ⟨v, member, leaf⟩))

section

variable {s : Scope} (proper : (s.map Symbol.name).Nodup)
  (bound : ∀ x ∈ s, x.kind.isBinding = true → x.ident.span.Says source x.ident.val)
include proper bound

/-- The unused bindings of a scope are at different places. -/
theorem Check.apart_unusedFindings (o : ValidatorOptions) (d : Definitions) :
    (unusedFindings ⟨o, d, .declared⟩ s).Pairwise fun f g ↦ level Finding.inOrder f g = false := by
  rw [unusedFindings]
  split
  · refine List.pairwise_map.2 (List.pairwise_filter.2 ?_)
    refine (List.pairwise_map.1 proper).imp_of_mem fun {x y} hx hy differ xUnused yUnused ↦ ?_
    -- at one place they would have one name
    refine Bool.eq_false_iff.2 fun related ↦ differ ?_
    obtain ⟨start, stop⟩ := Finding.level_iff.1 related
    exact (bound x hx (Bool.and_eq_true_iff.1 xUnused).1).unique
      (bound y hy (Bool.and_eq_true_iff.1 yUnused).1) start stop
  · exact .nil

/-- The unused bindings of a scope at one place do not depend on the order in which the scope tells
its symbols. -/
theorem Check.filter_level_unusedFindings (o : ValidatorOptions) (d : Definitions) (e : Enumeration)
    (f : Finding) :
    (unusedFindings ⟨o, d, e⟩ s).filter (level Finding.inOrder f)
      = (unusedFindings ⟨o, d, .declared⟩ s).filter (level Finding.inOrder f) := by
  refine (filter_level_of_perm Finding.inOrder_trans ?_
    (apart_unusedFindings proper bound o d) f).symm
  rw [unusedFindings, unusedFindings]
  split
  · exact (((e.perm s).filter _).map _).symm
  · exact .nil

end

/-- Checks that ask scopes for their symbols in different orders find the same at each place. -/
theorem Knowledge.relates_enumeration (o : ValidatorOptions) (d : Definitions)
    (e e' : Enumeration) : Knowledge.Relates
      (fun fs gs ↦ ∀ f, fs.filter (level Finding.inOrder f) = gs.filter (level Finding.inOrder f))
      (fun x ↦ x.span.Says source x.val) ⟨o, d, e⟩ ⟨o, d, e'⟩ where
  hasAgent _ := rfl
  hasSkill _ := rfl
  arity _ := rfl
  both _ same f := by rw [List.filter_append, List.filter_append, same]
  model _ _ same f := by rw [List.filter_append, List.filter_append, same]
  skill _ _ same f := by rw [List.filter_append, List.filter_append, same]
  unused proper bound same f := by
    rw [List.filter_append, List.filter_append, same,
      Check.filter_level_unusedFindings proper bound o d e f,
      Check.filter_level_unusedFindings proper bound o d e' f]

/-- The result of validating what a text says, with the order of its findings, is the same whatever
the order in which scopes tell their symbols. -/
theorem validate_enumeration (source : String) (o : ValidatorOptions) (e e' : Enumeration) :
    validate (parse source).program o e = validate (parse source).program o e'
      ∧ (validate (parse source).program o e).findings
        = (validate (parse source).program o e').findings := by
  have same : validate (parse source).program o e = validate (parse source).program o e' := by
    rw [validate_eq, validate_eq]
    exact ValidationResult.ofFindings_congr
      (rawFindings_relates (Knowledge.relates_enumeration o _ e e') (fun _ ↦ rfl)
        (bind_parse source))
  exact ⟨same, congrArg _ same⟩

end ProseLang
