import Mathlib.Computability.Language

/-!
# Longest words

A scanner takes the longest word of a language that stands in front of a text. The longest word of
a product is not the product of the longest words in general: a shorter first factor may leave more
for the second one. It is, when that cannot happen, and one look at the text shows that it cannot:
every shorter first factor is cut off before a character that no second factor begins with.

`Longest p L cs word rest` therefore says more than that `word` is the longest word of `L` in front
of `cs`. It says before which characters, those that satisfy `p`, a shorter one may end. With that
the longest words of sums and products are put together from those of their parts. A word that may
be missing is a word of `1 + L`, and it is the empty word exactly when no word of `L` is there.
-/

namespace Formulae

/-! ### Words of one kind of character -/

/-- The words of a single character of a kind. -/
def oneOf (p : Char → Prop) : Language Char :=
  {word | ∃ c, p c ∧ word = [c]}

/-- The words of one or more characters of a kind. -/
def runOf (p : Char → Prop) : Language Char :=
  {word | word ≠ [] ∧ ∀ c ∈ word, p c}

section

variable {p q : Char → Prop} {L M : Language Char} {c : Char} {word u : List Char}

@[simp]
theorem mem_runOf : word ∈ runOf p ↔ word ≠ [] ∧ ∀ c ∈ word, p c :=
  Iff.rfl

/-- A word that may be missing is empty or there. -/
theorem mem_optional : word ∈ 1 + L ↔ word = [] ∨ word ∈ L := by
  rw [Language.mem_add, Language.mem_one]

theorem nil_mem_optional (L : Language Char) : [] ∈ 1 + L :=
  mem_optional.2 (.inl rfl)

/-- A run that may be missing has only characters of its kind in any case. -/
theorem all_of_mem_optional_runOf (h : word ∈ 1 + runOf p) : ∀ c ∈ word, p c := by
  rcases mem_optional.1 h with rfl | ⟨-, hall⟩
  · exact nofun
  · exact hall

theorem mem_optional_runOf (h : ∀ c ∈ word, p c) : word ∈ 1 + runOf p := by
  rw [mem_optional]
  exact or_iff_not_imp_left.2 fun hne ↦ ⟨hne, h⟩

/-! ### How words begin -/

/-- Every word begins, and with a character of a kind. -/
def Begins (p : Char → Prop) (L : Language Char) : Prop :=
  ∀ word ∈ L, ∃ c ∈ word.head?, p c

/-- A word of one character begins with that character. -/
theorem begins_oneOf (p : Char → Prop) : Begins p (oneOf p) := by
  rintro _ ⟨c, hc, rfl⟩
  exact ⟨c, rfl, hc⟩

/-- A run begins with a character of its kind. -/
theorem begins_runOf (p : Char → Prop) : Begins p (runOf p) := by
  rintro (- | ⟨c, word⟩) ⟨hne, hall⟩
  · exact absurd rfl hne
  · exact ⟨c, rfl, hall c List.mem_cons_self⟩

/-- A product begins as its first factor does, which is never empty. -/
theorem Begins.mul (h : Begins p L) (M : Language Char) : Begins p (L * M) := by
  intro word hword
  obtain ⟨u, hu, v, -, rfl⟩ := Language.mem_mul.1 hword
  obtain ⟨c, hc, hp⟩ := h u hu
  exact ⟨c, List.mem_head?_append_of_mem_head? hc, hp⟩

/-- A sum begins in either way. -/
theorem Begins.add (hL : Begins p L) (hM : Begins q M) : Begins (fun c ↦ p c ∨ q c) (L + M) := by
  intro word hword
  rcases (Language.mem_add L M word).1 hword with hword | hword
  · obtain ⟨c, hc, hp⟩ := hL word hword
    exact ⟨c, hc, .inl hp⟩
  · obtain ⟨c, hc, hq⟩ := hM word hword
    exact ⟨c, hc, .inr hq⟩

/-- The empty word does not begin at all. -/
theorem Begins.nil_notMem (h : Begins p L) : [] ∉ L := by
  intro hnil
  obtain ⟨c, hc, -⟩ := h [] hnil
  cases hc

theorem Begins.head (h : Begins p L) (hword : word ∈ L) (hc : c ∈ word.head?) : p c := by
  obtain ⟨d, hd, hp⟩ := h word hword
  cases Option.mem_unique hc hd
  exact hp

/-- If a word that may be missing has a first character, the word is there. -/
theorem Begins.head_optional (h : Begins p L) (hword : word ∈ 1 + L) (hc : c ∈ word.head?) :
    p c := by
  rcases mem_optional.1 hword with rfl | hword
  · cases hc
  · exact h.head hword hc

/-! ### How words are written -/

/-- Every word is written in characters of a kind. -/
def WrittenIn (p : Char → Prop) (L : Language Char) : Prop :=
  ∀ word ∈ L, ∀ c ∈ word, p c

/-- A word of one character is written in that character. -/
theorem writtenIn_oneOf (h : ∀ c, q c → p c) : WrittenIn p (oneOf q) := by
  rintro _ ⟨c, hc, rfl⟩
  exact List.forall_mem_singleton.2 (h c hc)

theorem writtenIn_runOf (h : ∀ c, q c → p c) : WrittenIn p (runOf q) :=
  fun _ hword c hc ↦ h c (hword.2 c hc)

/-- A product is written in what both its factors are written in. -/
theorem WrittenIn.mul (hL : WrittenIn p L) (hM : WrittenIn p M) : WrittenIn p (L * M) := by
  intro word hword
  obtain ⟨u, hu, v, hv, rfl⟩ := Language.mem_mul.1 hword
  exact List.forall_mem_append.2 ⟨hL u hu, hM v hv⟩

theorem WrittenIn.add (hL : WrittenIn p L) (hM : WrittenIn p M) : WrittenIn p (L + M) :=
  fun word hword ↦ ((Language.mem_add L M word).1 hword).elim (hL word) (hM word)

theorem WrittenIn.optional (h : WrittenIn p L) : WrittenIn p (1 + L) := by
  intro word hword
  rcases mem_optional.1 hword with rfl | hword
  · exact nofun
  · exact h word hword

/-! ### Longest words -/

/-- No word of the language stands in front of the text. -/
def Absent (L : Language Char) (cs : List Char) : Prop :=
  ∀ u ∈ L, ¬ u <+: cs

/-- The longest word of the language in front of a text, and the rest. Every shorter word in front
of the text ends before a character that satisfies `p`. -/
structure Longest (p : Char → Prop) (L : Language Char) (cs word rest : List Char) : Prop where
  append : word ++ rest = cs
  mem : word ∈ L
  cut : ∀ u ∈ L, u <+: cs → u = word ∨ ∃ c, p c ∧ u ++ [c] <+: word

variable {cs rest word' rest' : List Char}

/-- A word that begins otherwise than the text is absent. -/
theorem Begins.absent (h : Begins p L) (hcs : ∀ c ∈ cs.head?, ¬ p c) : Absent L cs := by
  intro u hu hstands
  obtain ⟨c, hc, hp⟩ := h u hu
  obtain ⟨rest, rfl⟩ := hstands
  exact hcs c (List.mem_head?_append_of_mem_head? hc) hp

/-- No word stands in front of a character that none begins with. -/
theorem Begins.absent_cons (h : Begins p L) (hc : ¬ p c) (cs : List Char) : Absent L (c :: cs) := by
  refine h.absent ?_
  rintro _ ⟨⟩
  exact hc

/-- No word stands at the end. -/
theorem Begins.absent_nil (h : Begins p L) : Absent L [] := by
  refine h.absent ?_
  rintro _ ⟨⟩

/-- A product is absent where its first factor is. -/
theorem Absent.mul (h : Absent L cs) (M : Language Char) : Absent (L * M) cs := by
  intro word hword hstands
  obtain ⟨u, hu, v, -, rfl⟩ := Language.mem_mul.1 hword
  exact h u hu ((List.prefix_append u v).trans hstands)

/-- A sum is absent where both summands are. -/
theorem Absent.add (hL : Absent L cs) (hM : Absent M cs) : Absent (L + M) cs := by
  intro u hu
  rcases (Language.mem_add L M u).1 hu with hu | hu
  · exact hL u hu
  · exact hM u hu

/-- Where no word stands, the longest word that may be missing is the empty one, and nothing is
shorter. -/
theorem Absent.longest (h : Absent L cs) : Longest p (1 + L) cs [] cs where
  append := rfl
  mem := nil_mem_optional L
  cut u hu hstands := (mem_optional.1 hu).imp_right fun hu ↦ absurd hstands (h u hu)

namespace Longest

/-- Cuts before some characters are cuts before more of them. -/
theorem mono (h : Longest p L cs word rest) (hpq : ∀ c, p c → q c) :
    Longest q L cs word rest where
  append := h.append
  mem := h.mem
  cut u hu hstands := (h.cut u hu hstands).imp_right fun ⟨c, hc, hcut⟩ ↦ ⟨c, hpq c hc, hcut⟩

/-- No word in front of the text is longer. -/
theorem length_le (h : Longest p L cs word rest) (hu : u ∈ L) (hstands : u <+: cs) :
    u.length ≤ word.length := by
  rcases h.cut u hu hstands with rfl | ⟨c, -, hcut⟩
  · exact le_rfl
  · exact ((List.prefix_append u [c]).trans hcut).length_le

/-- The longest word is the only one of its length. -/
theorem eq_of_length_le (h : Longest p L cs word rest) (hu : u ∈ L) (hstands : u <+: cs)
    (hle : word.length ≤ u.length) : u = word := by
  rcases h.cut u hu hstands with rfl | ⟨c, -, hcut⟩
  · rfl
  · have hlt := hcut.length_le
    rw [List.length_append, List.length_singleton] at hlt
    omega

/-- There is one word of a single character at most, so none is shorter. -/
theorem one (hc : q c) : Longest p (oneOf q) (c :: cs) [c] cs where
  append := rfl
  mem := ⟨c, hc, rfl⟩
  cut := by
    rintro _ ⟨d, -, rfl⟩ hstands
    exact .inl (by rw [(List.cons_prefix_cons.1 hstands).1])

/-- A run is as long as possible if what follows is of another kind. Every shorter one is cut off
within the run. -/
theorem run (hword : ∀ c ∈ word, p c) (hrest : ∀ c ∈ rest.head?, ¬ p c) :
    Longest p (1 + runOf p) (word ++ rest) word rest where
  append := rfl
  mem := mem_optional_runOf hword
  cut u hu hstands := by
    have hall := all_of_mem_optional_runOf hu
    rcases List.prefix_or_prefix_of_prefix hstands (List.prefix_append word rest) with h | h
    · obtain ⟨- | ⟨c, later⟩, rfl⟩ := h
      · exact .inl (List.append_nil u).symm
      · refine .inr ⟨c, hword c (by simp), later, ?_⟩
        rw [List.append_assoc, List.singleton_append]
    · -- a longer run would go on with the rest
      obtain ⟨- | ⟨c, later⟩, rfl⟩ := h
      · exact .inl (List.append_nil word)
      · obtain ⟨tail, htail⟩ := (List.prefix_append_right_inj word).1 hstands
        exact absurd (hall c (by simp)) (hrest c (by rw [← htail]; rfl))

/-- The longest run of a kind is what the characters of that kind in front of the text make up. -/
theorem takeWhile (p : Char → Bool) (cs : List Char) :
    Longest (p · = true) (1 + runOf (p · = true)) cs (cs.takeWhile p) (cs.dropWhile p) := by
  have h : Longest (p · = true) (1 + runOf (p · = true)) (cs.takeWhile p ++ cs.dropWhile p)
      (cs.takeWhile p) (cs.dropWhile p) := by
    refine run (fun c hc ↦ List.all_eq_true.1 List.all_takeWhile c hc) fun c hc ↦ ?_
    have hnot := List.head?_dropWhile_not p cs
    rw [Option.mem_def.1 hc] at hnot
    exact Bool.eq_false_iff.1 hnot
  rwa [List.takeWhile_append_dropWhile] at h

/-- A shorter first factor is followed by a character that no second factor begins with. So the
second factor is empty there. -/
private theorem eq_nil_of_cut {v : List Char} (h : word ++ rest = cs) (hcut : u ++ [c] <+: word)
    (hstands : u ++ v <+: cs) (hc : c ∉ v.head?) : v = [] := by
  have hboth : u ++ [c] <+: cs := hcut.trans ⟨rest, h⟩
  rcases v with - | ⟨d, v⟩
  · rfl
  · obtain ⟨later, hlater⟩ := hboth
    obtain ⟨tail, htail⟩ := hstands
    rw [← hlater, List.append_assoc, List.append_assoc, List.append_right_inj] at htail
    cases htail
    exact absurd rfl hc

/-- The longest word of a product is that of its factors, provided that no second factor begins with
a character before which a shorter first factor can be cut off. -/
theorem mul (hL : Longest p L cs word rest) (hM : Longest q M rest word' rest')
    (hhead : ∀ v ∈ M, ∀ c ∈ v.head?, ¬ p c) :
    Longest (fun c ↦ p c ∨ q c) (L * M) cs (word ++ word') rest' where
  append := by rw [List.append_assoc, hM.append, hL.append]
  mem := Language.mem_mul.2 ⟨word, hL.mem, word', hM.mem, rfl⟩
  cut := by
    intro _ huv hstands
    obtain ⟨u, hu, v, hv, rfl⟩ := Language.mem_mul.1 huv
    rcases hL.cut u hu ((List.prefix_append u v).trans hstands) with rfl | ⟨c, hc, hcut⟩
    · -- behind the longest first factor, the second one is cut off as before
      rw [← hL.append, List.prefix_append_right_inj] at hstands
      rcases hM.cut v hv hstands with rfl | ⟨c, hc, hcut⟩
      · exact .inl rfl
      · refine .inr ⟨c, .inr hc, ?_⟩
        rw [List.append_assoc]
        exact (List.prefix_append_right_inj u).2 hcut
    · obtain rfl := eq_nil_of_cut hL.append hcut hstands fun hcv ↦ hhead v hv c hcv hc
      rw [List.append_nil]
      exact .inr ⟨c, .inl hc, hcut.trans (List.prefix_append word word')⟩

/-- A product is absent if its second factor is absent behind the longest first one. -/
theorem absent_mul (hL : Longest p L cs word rest) (hM : Absent M rest) (hnil : [] ∉ M)
    (hhead : ∀ v ∈ M, ∀ c ∈ v.head?, ¬ p c) : Absent (L * M) cs := by
  intro _ huv hstands
  obtain ⟨u, hu, v, hv, rfl⟩ := Language.mem_mul.1 huv
  rcases hL.cut u hu ((List.prefix_append u v).trans hstands) with rfl | ⟨c, hc, hcut⟩
  · rw [← hL.append, List.prefix_append_right_inj] at hstands
    exact hM v hv hstands
  · obtain rfl := eq_nil_of_cut hL.append hcut hstands fun hcv ↦ hhead v hv c hcv hc
    exact hnil hv

/-- A summand that is absent changes nothing. -/
theorem add_left (hL : Longest p L cs word rest) (hM : Absent M cs) :
    Longest p (L + M) cs word rest where
  append := hL.append
  mem := (Language.mem_add L M word).2 (.inl hL.mem)
  cut u hu hstands := by
    rcases (Language.mem_add L M u).1 hu with hu | hu
    · exact hL.cut u hu hstands
    · exact absurd hstands (hM u hu)

theorem add_right (hL : Absent L cs) (hM : Longest p M cs word rest) :
    Longest p (L + M) cs word rest := by
  rw [add_comm]
  exact hM.add_left hL

/-! ### Words that may be missing -/

/-- The empty word is cut off before the first character of the longest word. -/
theorem optional (h : Longest p L cs word rest) (hhead : ∃ c ∈ word.head?, p c) :
    Longest p (1 + L) cs word rest where
  append := h.append
  mem := mem_optional.2 (.inr h.mem)
  cut u hu hstands := by
    rcases mem_optional.1 hu with rfl | hu
    · obtain ⟨c, hc, hp⟩ := hhead
      obtain ⟨later, rfl⟩ := List.head?_eq_some_iff.1 hc
      exact .inr ⟨c, hp, later, rfl⟩
    · exact h.cut u hu hstands

/-- What may be missing, but is not, is a word of the language. -/
theorem required (h : Longest p (1 + L) cs word rest) (hne : word ≠ []) :
    Longest p L cs word rest where
  append := h.append
  mem := (mem_optional.1 h.mem).resolve_left hne
  cut u hu := h.cut u (mem_optional.2 (.inr hu))

/-- What may be missing, and is at its longest, is absent. -/
theorem absent (h : Longest p (1 + L) cs [] rest) (hnil : [] ∉ L) : Absent L cs := by
  intro u hu hstands
  have hle := h.length_le (mem_optional.2 (.inr hu)) hstands
  exact hnil (List.length_eq_zero_iff.1 (Nat.le_zero.1 hle) ▸ hu)

/-- A product that may be missing is missing if its second factor is. -/
theorem optional_mul {s o : Char → Prop} (hL : Longest p L cs word rest)
    (hM : Longest q (1 + M) rest word' rest') (hopens : Begins o M) (hop : ∀ c, o c → ¬ p c)
    (hhead : ∃ c ∈ word.head?, s c) (hps : ∀ c, p c → s c) (hqs : ∀ c, q c → s c) :
    Longest s (1 + L * M) cs (if word' = [] then [] else word ++ word')
      (if word' = [] then cs else rest') := by
  have hheads : ∀ v ∈ M, ∀ c ∈ v.head?, ¬ p c := fun v hv c hc ↦ hop c (hopens.head hv hc)
  by_cases hnil : word' = []
  · subst hnil
    rw [if_pos rfl, if_pos rfl]
    have hrest : rest' = rest := hM.append
    rw [hrest] at hM
    exact (hL.absent_mul (hM.absent hopens.nil_notMem) hopens.nil_notMem hheads).longest
  · rw [if_neg hnil, if_neg hnil]
    obtain ⟨c, hc, hs⟩ := hhead
    refine ((hL.mul (hM.required hnil) hheads).mono fun d hd ↦ ?_).optional
      ⟨c, List.mem_head?_append_of_mem_head? hc, hs⟩
    exact hd.elim (hps d) (hqs d)

end Longest

end

end Formulae
