import ProseLang.Text.Position

/-!
# Slices of a text by byte offset

`dropBytes?` and `takeBytes?` cut a text at a byte offset; a cut inside a character or past the
end has no answer. Main statements: a cut that answers splits the text
(`takeBytes?_append_dropBytes?`) at exactly that many bytes (`utf8Length_takeBytes?`).
-/

namespace ProseLang

/-- The text from a byte offset on, if the offset is a character boundary. -/
def dropBytes? : (offset : Nat) → (text : List Char) → Option (List Char)
  | 0, text => some text
  | _ + 1, [] => none
  | n + 1, c :: text =>
    if c.utf8Size ≤ n + 1 then dropBytes? (n + 1 - c.utf8Size) text else none

/-- The text before a byte offset, if the offset is a character boundary. -/
def takeBytes? : (offset : Nat) → (text : List Char) → Option (List Char)
  | 0, _ => some []
  | _ + 1, [] => none
  | n + 1, c :: text =>
    if c.utf8Size ≤ n + 1 then (takeBytes? (n + 1 - c.utf8Size) text).map (c :: ·) else none

/-- The text between two byte offsets, if both are character boundaries in this order. -/
def sliceBytes? (start stop : Nat) (text : List Char) : Option (List Char) :=
  if start ≤ stop then (dropBytes? start text).bind (takeBytes? (stop - start)) else none

/-- The two sides of a cut make up the text. -/
theorem takeBytes?_append_dropBytes? {offset : Nat} {text before : List Char}
    (h : takeBytes? offset text = some before) :
    ∃ rest, dropBytes? offset text = some rest ∧ before ++ rest = text := by
  fun_induction takeBytes? offset text generalizing before with
  | case1 text => simp_all [dropBytes?]
  | case2 => simp at h
  | case3 n c text hc ih =>
    obtain ⟨u, hu, rfl⟩ := Option.map_eq_some_iff.1 h
    obtain ⟨rest, hr, he⟩ := ih hu
    exact ⟨rest, by simp [dropBytes?, hc, hr], by simp [he]⟩
  | case4 => simp at h

/-- The text before a cut has as many bytes as the offset says. -/
theorem utf8Length_takeBytes? {offset : Nat} {text before : List Char}
    (h : takeBytes? offset text = some before) : utf8Length before = offset := by
  fun_induction takeBytes? offset text generalizing before with
  | case1 text => simp_all
  | case2 => simp at h
  | case3 n c text hc ih =>
    obtain ⟨u, hu, rfl⟩ := Option.map_eq_some_iff.1 h
    simp only [utf8Length_cons, ih hu]
    omega
  | case4 => simp at h

/-- Every character boundary is a place to cut. -/
theorem takeBytes?_utf8Length (before rest : List Char) :
    takeBytes? (utf8Length before) (before ++ rest) = some before := by
  induction before with
  | nil => simp [takeBytes?]
  | cons c before ih =>
    have hc := Char.utf8Size_pos c
    obtain ⟨n, hn⟩ : ∃ n, utf8Length (c :: before) = n + 1 :=
      ⟨c.utf8Size + utf8Length before - 1, by simp only [utf8Length_cons]; omega⟩
    have h' : n + 1 - c.utf8Size = utf8Length before := by
      rw [← hn]; simp
    rw [hn, List.cons_append, takeBytes?, h', ih]
    rw [if_pos (by rw [← hn]; simp)]
    rfl

/-- The text behind the bytes of a first part is the second part. -/
theorem dropBytes?_utf8Length (before rest : List Char) :
    dropBytes? (utf8Length before) (before ++ rest) = some rest := by
  obtain ⟨text, drop, whole⟩ := takeBytes?_append_dropBytes? (takeBytes?_utf8Length before rest)
  rw [drop, List.append_cancel_left whole]

end ProseLang
