import Formulary.Proofs.Reading.Tokens

/-!
# Where words occur

Tokens say where words stand, texts only what their characters are. The tokens
of a text stand in order, each at an occurrence of its word, and word characters
that occur in the text lie within one word. So when nothing but a word itself
has its characters in it, the first token of that word is at its first
occurrence (`firstAt_of_find?`).
-/

namespace Formulary

/-- A word is in a text, and not before the given offset. -/
structure FirstAt (word text : List Char) (offset : Nat) : Prop where
  occurs : ∃ before after, text = before ++ (word ++ after) ∧ before.length = offset
  first : ∀ before after, text = before ++ (word ++ after) → offset ≤ before.length

/-- The tokens of a text stand in the order of their offsets. -/
theorem pairwise_tokensFrom (offset : Nat) (text : List Char) :
    (tokensFrom offset text).Pairwise fun p q => p.offset < q.offset := by
  induction text generalizing offset with
  | nil => exact .nil
  | cons c cs ih =>
      have hstep := precedes_tokensFrom offset c cs
      have hlater : ∀ q ∈ tokensFrom (offset + 1) cs, offset < q.offset :=
        fun q hq => offset_le_of_mem_tokensFrom hq
      have hall := ih (offset + 1)
      generalize tokensFrom offset (c :: cs) = ts at hstep
      cases hstep with
      | blank => exact hall
      | bracket _ | begins => exact .cons hlater hall
      | joins heq =>
          rw [heq] at hlater hall
          exact .cons (fun q hq => hlater q (List.mem_cons_of_mem _ hq)) hall.of_cons

/-- A word occurs where its token stands. -/
theorem exists_append_of_mem_tokensFrom {text word : List Char} {offset start : Nat}
    (h : ⟨.word word, start⟩ ∈ tokensFrom offset text) :
    ∃ before after, text = before ++ (word ++ after) ∧ start = offset + before.length := by
  induction text generalizing offset word start with
  | nil => cases h
  | cons c cs ih =>
      have hbehind : ∀ {word : List Char} {start : Nat},
          ⟨.word word, start⟩ ∈ tokensFrom (offset + 1) cs →
          ∃ before after, c :: cs = before ++ (word ++ after) ∧ start = offset + before.length := by
        intro word start hmem
        obtain ⟨before, after, htext, hstart⟩ := ih hmem
        refine ⟨c :: before, after, by rw [htext, List.cons_append], ?_⟩
        rw [hstart, List.length_cons, Nat.add_right_comm, Nat.add_assoc]
      have hstep := precedes_tokensFrom offset c cs
      generalize tokensFrom offset (c :: cs) = ts at h hstep
      cases hstep with
      | blank => exact hbehind h
      | bracket hbracket =>
          rcases List.mem_cons.mp h with heq | h
          · cases heq
            exact absurd rfl (hbracket word)
          · exact hbehind h
      | begins =>
          rcases List.mem_cons.mp h with heq | h
          · cases heq
            exact ⟨[], cs, rfl, rfl⟩
          · exact hbehind h
      | joins heq =>
          have hmem : ∀ q ∈ _ :: _, q ∈ tokensFrom (offset + 1) cs := fun q hq => heq ▸ hq
          rcases List.mem_cons.mp h with hhead | h
          · -- the word behind stands right there, so the character is in front of it
            cases hhead
            obtain ⟨before, after, htext, hstart⟩ := ih (hmem _ List.mem_cons_self)
            obtain rfl : before = [] := List.length_eq_zero_iff.mp (by omega)
            exact ⟨[], after, by rw [htext]; rfl, rfl⟩
          · exact hbehind (hmem _ (List.mem_cons_of_mem _ h))

/-- Word characters in a row lie within one word. -/
theorem exists_mem_tokensFrom {run : List Char} (hrun : IsWord run) (before after : List Char)
    (offset : Nat) : ∃ front back start,
      ⟨.word (front ++ (run ++ back)), start⟩ ∈ tokensFrom offset (before ++ (run ++ after)) ∧
        start + front.length = offset + before.length := by
  induction before generalizing offset with
  | nil =>
      -- the word goes on until its characters end
      have htake : ∀ c ∈ after.takeWhile isWordChar, isWordChar c = true :=
        fun c hc => List.all_eq_true.mp List.all_takeWhile c hc
      have hword : IsWord (run ++ after.takeWhile isWordChar) :=
        ⟨List.append_ne_nil_of_left_ne_nil hrun.1 _,
          List.forall_mem_append.mpr ⟨hrun.2, htake⟩⟩
      have hsplit : run ++ after =
          (run ++ after.takeWhile isWordChar) ++ after.dropWhile isWordChar := by
        rw [List.append_assoc, List.takeWhile_append_dropWhile]
      refine ⟨[], after.takeWhile isWordChar, offset, ?_, rfl⟩
      rw [List.nil_append, List.nil_append, hsplit,
        tokensFrom_word hword (endsWord_dropWhile after)]
      exact List.mem_cons_self
  | cons c before ih =>
      obtain ⟨front, back, start, hmem, hstart⟩ := ih (offset + 1)
      have hlength : start + front.length = offset + (c :: before).length := by
        rw [hstart, List.length_cons, Nat.add_right_comm, Nat.add_assoc]
      have hstep := precedes_tokensFrom offset c (before ++ (run ++ after))
      rw [List.cons_append]
      generalize tokensFrom offset (c :: (before ++ (run ++ after))) = ts at hstep
      generalize tokensFrom (offset + 1) (before ++ (run ++ after)) = later at hmem hstep
      cases hstep with
      | blank => exact ⟨front, back, start, hmem, hlength⟩
      | bracket _ | begins =>
          exact ⟨front, back, start, List.mem_cons_of_mem _ hmem, hlength⟩
      | joins heq =>
          rw [heq] at hmem
          rcases List.mem_cons.mp hmem with hhead | hmem
          · cases hhead
            refine ⟨c :: front, back, offset, List.mem_cons_self, ?_⟩
            rw [List.length_cons]
            omega
          · exact ⟨front, back, start, List.mem_cons_of_mem _ hmem, hlength⟩

/-- What is found first stands before anything else that could have been found. -/
theorem offset_le_of_find? {ts : List Placed} {f : Placed → Bool} {p q : Placed}
    (hts : ts.Pairwise fun p q => p.offset < q.offset) (hfind : ts.find? f = some p) (hq : q ∈ ts)
    (hf : f q = true) : p.offset ≤ q.offset := by
  obtain ⟨-, before, after, rfl, hbefore⟩ := List.find?_eq_some_iff_append.mp hfind
  rcases List.mem_append.mp hq with hq | hq
  · have hnot := hbefore q hq
    rw [hf] at hnot
    cases hnot
  · rcases List.mem_cons.mp hq with rfl | hq
    · exact Nat.le_refl _
    · exact Nat.le_of_lt (List.rel_of_pairwise_cons (List.pairwise_append.mp hts).2.1 hq)

/-- **First occurrence.** The first of the tokens sought is at the first occurrence of its word, if
whatever word has the characters of this one in it is this word and sought. -/
theorem firstAt_of_find? {text word : List Char} {offset : Nat} {f : Placed → Bool}
    (hword : IsWord word) (hfind : (tokensFrom 0 text).find? f = some ⟨.word word, offset⟩)
    (hsought : ∀ front back start, ⟨.word (front ++ (word ++ back)), start⟩ ∈ tokensFrom 0 text →
      front ++ (word ++ back) = word ∧ f ⟨.word (front ++ (word ++ back)), start⟩ = true) :
    FirstAt word text offset where
  occurs := by
    obtain ⟨before, after, htext, hoffset⟩ :=
      exists_append_of_mem_tokensFrom (List.mem_of_find?_eq_some hfind)
    exact ⟨before, after, htext, by omega⟩
  first before after htext := by
    obtain ⟨front, back, start, hmem, hstart⟩ := exists_mem_tokensFrom hword before after 0
    rw [← htext] at hmem
    obtain ⟨heq, hf⟩ := hsought front back start hmem
    have hle := offset_le_of_find? (pairwise_tokensFrom 0 text) hfind hmem hf
    dsimp only at hle
    omega

end Formulary
