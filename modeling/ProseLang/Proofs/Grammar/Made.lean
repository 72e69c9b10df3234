import ProseLang.Proofs.Grammar.Accounting
import ProseLang.Proofs.Grammar.WrittenReaders
import ProseLang.Proofs.Program.Complete
import ProseLang.Proofs.Program.Leaves

/-!
# Parts that are made from tokens

`Made clean ts vs words` says of the parts `vs` that the settings of each of them are written in the
stream `ts`, each setting of a session or an agent once (`Visit.IsWritten`). Where the stream is
clean, nothing is missing from any of them, and each of the reserved words `words` belongs to one of
them: it starts a session or the definition of an agent, or is the key of a property (`Visit.Owns`).
-/

namespace ProseLang

/-- Whether a parser gives something somewhere in a stream. -/
def ReadIn {α : Type} (ts : List Token) (p : Parser α) (x : α) : Prop :=
  ∃ c d, c.final.kind = .endOfFile ∧ c.rest <:+ ts ∧ p c = (.ok x, d)

/-- What a parser gives at a cursor is read in the stream of the cursor. -/
theorem Cursor.On.readIn {α : Type} {clean : Prop} {ts : List Token} {c d : Cursor} {p : Parser α}
    {x : α} (hc : c.On clean ts) (run : p c = (.ok x, d)) :
    ReadIn ts p x := ⟨c, d, hc.final, hc.suffix, run⟩

/-- Whether the settings of a session are written at its place in a stream, each of them once. -/
def SessionOf.IsWritten (ts : List Token) (s : Session) : Prop :=
  ∃ depth pipes text, ReadIn ts (Parser.sessionText (.upTo depth) pipes) text
    ∧ text.span = s.span ∧ text.keys = s.keys ∧ text.settings.Nodup

/-- Whether the settings of an agent are written at its place in a stream, each of them once. -/
def AgentOf.IsWritten (ts : List Token) (a : Agent) : Prop :=
  ∃ depth pipes text, ReadIn ts (Parser.agentText (.upTo depth) pipes) text
    ∧ text.span = a.span ∧ text.keys = a.keys ∧ (text.keys.map Located.val).Nodup

/-- Whether a parallel block has the settings of the modifiers at its place in a stream. -/
def ParallelOf.IsWritten (ts : List Token) (p : Parallel) : Prop :=
  ∃ first ms, ReadIn ts Parser.parallelHeader (first, ms) ∧ p.span.start = first.start
    ∧ p.TakesLast ms

/-- Whether a loop has the settings of the modifiers at its place in a stream. -/
def LoopOf.IsWritten (ts : List Token) (l : Loop) : Prop :=
  ∃ first ms, ReadIn ts Parser.loopHeader (first, ms) ∧ l.span.start = first.start ∧ l.TakesLast ms

namespace Visit

/-- Whether the settings of a part are written in a stream. What is written as a context is not the
one that stands for none. -/
def IsWritten (ts : List Token) : Visit → Prop
  | action (.session s) => s.IsWritten ts
  | statement (.agent a) => a.IsWritten ts
  | statement (.parallel p) => p.IsWritten ts
  | statement (.loop l) => l.IsWritten ts
  | property p => p.value ≠ .context .implicit
  | _ => True

/-- Whether a reserved word belongs to a part. -/
def Owns (t : Token) : Visit → Prop
  | action (.session s) =>
    (t.kind = .keyword .session ∧ t.span.start = s.span.start) ∨ t.span ∈ s.keys.map Located.span
  | statement (.agent a) =>
    (t.kind = .keyword .agent ∧ t.span.start = a.span.start) ∨ t.span ∈ a.keys.map Located.span
  | property p => t.span = p.key.span
  | _ => False

end Visit

/-- Whether parts are made from tokens of a stream, to which some reserved words belong. -/
structure Made (clean : Prop) (ts : List Token) (vs : List Visit) (words : List Token) : Prop where
  written : ∀ v ∈ vs, v.IsWritten ts
  complete : clean → ∀ v ∈ vs, v.isComplete = true
  owned : clean → ∀ t ∈ words, ∃ v ∈ vs, v.Owns t

namespace Made

variable {clean clean' : Prop} {ts : List Token} {vs us : List Visit} {words others : List Token}
  {v : Visit}

/-- Nothing is made from nothing. -/
theorem nil : Made clean ts [] [] := ⟨nofun, fun _ ↦ nofun, fun _ ↦ nofun⟩

/-- Parts one after the other are made from words one after the other. -/
theorem append (h : Made clean ts vs words) (h' : Made clean ts us others) :
    Made clean ts (vs ++ us) (words ++ others) where
  written := List.forall_mem_append.2 ⟨h.written, h'.written⟩
  complete c := List.forall_mem_append.2 ⟨h.complete c, h'.complete c⟩
  owned c t ht := by
    rcases List.mem_append.1 ht with ht | ht
    · obtain ⟨v, hv, owns⟩ := h.owned c t ht
      exact ⟨v, List.mem_append_left us hv, owns⟩
    · obtain ⟨v, hv, owns⟩ := h'.owned c t ht
      exact ⟨v, List.mem_append_right vs hv, owns⟩

/-- Parts that are listed one after the other. -/
theorem several {α : Type} {visits : List α → List Visit} {xs ys : List α}
    (visits_append : ∀ xs ys, visits (xs ++ ys) = visits xs ++ visits ys)
    (h : Made clean ts (visits xs) words) (h' : Made clean ts (visits ys) others) :
    Made clean ts (visits (xs ++ ys)) (words ++ others) := by
  rw [visits_append]
  exact h.append h'

/-- One more part in front. -/
theorem cons (written : v.IsWritten ts) (complete : clean → v.isComplete = true)
    (h : Made clean ts vs words) : Made clean ts (v :: vs) words where
  written := List.forall_mem_cons.2 ⟨written, h.written⟩
  complete c := List.forall_mem_cons.2 ⟨complete c, h.complete c⟩
  owned c t ht := by
    obtain ⟨u, hu, owns⟩ := h.owned c t ht
    exact ⟨u, List.mem_cons_of_mem v hu, owns⟩

/-- One more part in front, with reserved words that belong to it. -/
theorem owning (h : Made clean ts vs words) (own : ∀ t ∈ others, v.Owns t)
    (written : v.IsWritten ts)
    (complete : v.isComplete = true) : Made clean ts (v :: vs) (others ++ words) where
  written := List.forall_mem_cons.2 ⟨written, h.written⟩
  complete c := List.forall_mem_cons.2 ⟨complete, h.complete c⟩
  owned c t ht := by
    rcases List.mem_append.1 ht with ht | ht
    · exact ⟨v, List.mem_cons_self, own t ht⟩
    · obtain ⟨u, hu, owns⟩ := h.owned c t ht
      exact ⟨u, List.mem_cons_of_mem v hu, owns⟩

/-- No more reserved words, at least where the stream is clean. -/
theorem append_idle (h : Made clean ts vs words) (idle : clean → others = []) :
    Made clean ts vs (words ++ others) :=
  ⟨h.written, h.complete, fun c ↦ by rw [idle c, List.append_nil]; exact h.owned c⟩

/-- Where less is clean, less is said. -/
theorem weaken (h : Made clean ts vs words) (imp : clean' → clean) : Made clean' ts vs words :=
  ⟨h.written, fun c ↦ h.complete (imp c), fun c ↦ h.owned (imp c)⟩

/-- Where the stream is not clean, nothing is said of what is complete or of words. -/
theorem of_not (written : ∀ v ∈ vs, v.IsWritten ts) (unclean : ¬ clean) : Made clean ts vs words :=
  ⟨written, fun c ↦ absurd c unclean, fun c ↦ absurd c unclean⟩

/-- A part that is made from others, with a reserved word in front: it may take over what the others
own. -/
theorem regroup (h : Made clean ts us words) {first : Token} (written : v.IsWritten ts)
    (complete : v.isComplete = true) (starts : v.Owns first)
    (kept : ∀ w ∈ vs, w ∈ us ∨ w.IsWritten ts ∧ w.isComplete = true)
    (owned : ∀ w ∈ us, ∀ t, w.Owns t → ∃ x ∈ v :: vs, x.Owns t) :
    Made clean ts (v :: vs) (first :: words) where
  written := by
    refine List.forall_mem_cons.2 ⟨written, fun w hw ↦ ?_⟩
    exact (kept w hw).elim (h.written w) And.left
  complete c := by
    refine List.forall_mem_cons.2 ⟨complete, fun w hw ↦ ?_⟩
    exact (kept w hw).elim (h.complete c w) And.right
  owned c := by
    refine List.forall_mem_cons.2 ⟨⟨v, List.mem_cons_self, starts⟩, fun t ht ↦ ?_⟩
    obtain ⟨w, hw, owns⟩ := h.owned c t ht
    exact owned w hw t owns

/-- A string that may be there or not. -/
theorem strings (s : Option StringLit) : Made clean ts (Visit.strings s) [] := by
  cases s with
  | none => exact nil
  | some s => exact nil.cons trivial fun _ ↦ rfl

end Made

/-- Whether parts are made from tokens, and bodies among them have code. -/
structure Full (clean : Prop) (ts words : List Token) (vs : List Visit)
    (bodies : List (List Statement)) : Prop where
  made : Made clean ts vs words
  code : clean → ∀ body ∈ bodies, hasCode body = true

/-- Whether a body is made from tokens and has code. -/
abbrev FullBody (clean : Prop) (ts words : List Token) (body : List Statement) : Prop :=
  Full clean ts words (bodyVisits everywhere body) [body]

namespace Full

variable {clean : Prop} {ts : List Token} {vs us : List Visit} {words others : List Token}
  {bodies more : List (List Statement)} {v : Visit}

/-- Parts without bodies are full. -/
theorem of_made (h : Made clean ts vs words) : Full clean ts words vs [] := ⟨h, fun _ _ ↦ nofun⟩

/-- Nothing is made from nothing, without bodies. -/
theorem nil : Full clean ts [] [] [] := of_made .nil

/-- Parts one after the other are made with their bodies one after the other. -/
theorem append (h : Full clean ts words vs bodies) (h' : Full clean ts others us more) :
    Full clean ts (words ++ others) (vs ++ us) (bodies ++ more) where
  made := h.made.append h'.made
  code c := List.forall_mem_append.2 ⟨h.code c, h'.code c⟩

/-- Parts that are listed one after the other, each with a body. -/
theorem several {α : Type} {visits : List α → List Visit} {b : α → List Statement} {xs ys : List α}
    (visits_append : ∀ xs ys, visits (xs ++ ys) = visits xs ++ visits ys)
    (h : Full clean ts words (visits xs) (xs.map b))
    (h' : Full clean ts others (visits ys) (ys.map b)) :
    Full clean ts (words ++ others) (visits (xs ++ ys)) ((xs ++ ys).map b) := by
  rw [visits_append, List.map_append]
  exact h.append h'

/-- A part with settings and code of its own in front of parts. -/
theorem cons (h : Full clean ts words vs bodies) (written : v.IsWritten ts)
    (complete : v.isComplete = true) :
    Full clean ts words (v :: vs) bodies := ⟨h.made.cons written fun _ ↦ complete, h.code⟩

/-- A part that lacks nothing but what is within it. -/
theorem part (h : Full clean ts words vs v.bodies) (written : v.IsWritten ts)
    (filled : clean → v.isFilled = true) : Made clean ts (v :: vs) words :=
  h.made.cons written fun c ↦ Bool.and_eq_true_iff.2 ⟨List.all_eq_true.2 (h.code c), filled c⟩

/-- A statement as a body. -/
theorem statement {s : Statement}
    (h : Full clean ts words (s.visits everywhere) (Visit.statement s).bodies)
    (written : (Visit.statement s).IsWritten ts)
    (filled : clean → (Visit.statement s).isFilled = true) :
    Made clean ts (bodyVisits everywhere [s]) words := by
  have ends : Made clean ts [.statementEnd] [] := .cons trivial (fun _ ↦ rfl) .nil
  have whole := (h.part written filled).append ends
  rwa [List.append_nil] at whole

end Full

/-! ## Lists of parts -/

/-- The parts of a body are those of its statements in order. -/
@[simp] theorem bodyVisits_append (body more : List Statement) :
    bodyVisits everywhere (body ++ more)
      = bodyVisits everywhere body ++ bodyVisits everywhere more := by
  induction body with
  | nil => rfl
  | cons s body ih => rw [List.cons_append, bodyVisits, bodyVisits, ih]; simp

/-- The parts of values are those of each value in order. -/
theorem valueVisits_append (es more : List Expr) :
    valueVisits everywhere (es ++ more) = valueVisits everywhere es ++ valueVisits everywhere
    more := by
  induction es with
  | nil => rfl
  | cons e es ih => rw [List.cons_append, valueVisits, valueVisits, ih, List.append_assoc]

/-- The parts of entries are those of each entry in order. -/
theorem entryVisits_append (es more : List Entry) :
    entryVisits everywhere (es ++ more) = entryVisits everywhere es ++ entryVisits everywhere
    more := by
  induction es with
  | nil => rfl
  | cons e es ih =>
    rcases e with ⟨key, value | value⟩
    · rw [List.cons_append, entryVisits, entryVisits, ih, List.cons_append]
    · rw [List.cons_append, entryVisits, entryVisits, ih, List.append_assoc]

/-- The parts of properties are those of each property in order. -/
theorem propertyVisits_append (ps more : List Property) :
    propertyVisits everywhere (ps ++ more)
      = propertyVisits everywhere ps ++ propertyVisits everywhere more := by
  induction ps with
  | nil => rfl
  | cons p ps ih => rw [List.cons_append, propertyVisits, propertyVisits, ih, List.append_assoc]

/-- The parts of operations are those of each operation in order. -/
theorem operationVisits_append (os more : List Operation) :
    operationVisits everywhere (os ++ more)
      = operationVisits everywhere os ++ operationVisits everywhere more := by
  induction os with
  | nil => rfl
  | cons o os ih => rw [List.cons_append, operationVisits, operationVisits, ih, List.append_assoc]

/-- The parts of options are those of each option in order. -/
theorem optionVisits_append (os more : List ChoiceOption) :
    optionVisits everywhere (os ++ more)
      = optionVisits everywhere os ++ optionVisits everywhere more := by
  induction os with
  | nil => rfl
  | cons o os ih => rw [List.cons_append, optionVisits, optionVisits, ih]; simp

/-- The parts of branches are those of each branch in order. -/
theorem branchVisits_append (bs more : List Branch) :
    branchVisits everywhere (bs ++ more)
      = branchVisits everywhere bs ++ branchVisits everywhere more := by
  induction bs with
  | nil => rfl
  | cons b bs ih => rw [List.cons_append, branchVisits, branchVisits, ih]; simp

/-- What is within properties is one of them or within the value of one. -/
theorem mem_propertyVisits_iff {v : Visit} {ps : List Property} :
    v ∈ propertyVisits everywhere ps
      ↔ ∃ p ∈ ps, v = .property p ∨ v ∈ p.value.visits everywhere := by
  induction ps with
  | nil => simp [propertyVisits]
  | cons p ps ih =>
    simp only [propertyVisits, Visit.opened, List.mem_append, ih, if_true, List.mem_cons,
      exists_eq_or_imp]

end ProseLang
