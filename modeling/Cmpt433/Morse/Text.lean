import Cmpt433.Morse.Driver

/-!
# What the driver is for: words, Morse text and back

The abstract side of the driver, in terms of byte strings only.

* `alphabet`, `letterText` — the International Morse alphabet.
* `script` — the letters of a buffer in order, each with the gap before it; `encoding` — the
  text for a buffer.
* `message` — the words of a buffer; `encodeMessage` — the text for a list of words;
  `decode` — the words in a text.

Principal results: `encodeMessage_message` (the text depends on the message alone) and
`decode_encoding` (the message can be read off the text).
-/

set_option autoImplicit false

namespace Morse

/-! ## The alphabet -/

/-- `.-`, `-...`, `-.-.`, … from A to Z. -/
def alphabet : List (List UInt8) :=
  [[dot, dash], [dash, dot, dot, dot], [dash, dot, dash, dot], [dash, dot, dot], [dot],
   [dot, dot, dash, dot], [dash, dash, dot], [dot, dot, dot, dot], [dot, dot],
   [dot, dash, dash, dash], [dash, dot, dash], [dot, dash, dot, dot], [dash, dash], [dash, dot],
   [dash, dash, dash], [dot, dash, dash, dot], [dash, dash, dot, dash], [dot, dash, dot],
   [dot, dot, dot], [dash], [dot, dot, dash], [dot, dot, dot, dash], [dot, dash, dash],
   [dash, dot, dot, dash], [dash, dot, dash, dash], [dash, dash, dot, dot]]

def upper (b : UInt8) : UInt8 := if cha ≤ b && b ≤ chz then b - (cha - chA) else b

def letterText (b : UInt8) : List UInt8 := alphabet.getD (upper b - chA).toNat []

/-- The letter with a given text. -/
def letterOf (t : List UInt8) : UInt8 := chA + UInt8.ofNat (alphabet.idxOf t)

/-- The 52 ASCII letters. -/
def letters : List UInt8 := ((List.range 256).map UInt8.ofNat).filter isAlpha

theorem mem_letters {b : UInt8} (h : isAlpha b = true) : b ∈ letters := by
  refine List.mem_filter.mpr ⟨List.mem_map.mpr ⟨b.toNat, ?_, by simp⟩, h⟩
  exact List.mem_range.mpr b.toNat_lt

/-- A property of the 52 letters can be checked one by one. -/
theorem forall_letter {P : UInt8 → Prop} [DecidablePred P]
    (h : letters.all (fun b => decide (P b)) = true) {b : UInt8} (hb : isAlpha b = true) : P b :=
  of_decide_eq_true (List.all_eq_true.mp h b (mem_letters hb))

theorem letterText_upper {b : UInt8} (h : isAlpha b = true) : letterText (upper b) = letterText b :=
  forall_letter (P := fun b => letterText (upper b) = letterText b) (by decide) h

theorem letterOf_letterText {b : UInt8} (h : isAlpha b = true) : letterOf (letterText b) = upper b :=
  forall_letter (P := fun b => letterOf (letterText b) = upper b) (by decide) h

theorem letterText_ne_nil {b : UInt8} (h : isAlpha b = true) : letterText b ≠ [] :=
  forall_letter (P := fun b => letterText b ≠ []) (by decide) h

theorem letterText_symbols {b : UInt8} (h : isAlpha b = true) :
    ∀ c ∈ letterText b, c = dot ∨ c = dash := by
  have hall := forall_letter (P := fun b => (letterText b).all (fun c => c == dot || c == dash) = true)
    (by decide) h
  simpa using hall

theorem blank_notMem_letterText {b : UInt8} (h : isAlpha b = true) : blank ∉ letterText b :=
  fun hm => by rcases letterText_symbols h _ hm with h | h <;> revert h <;> decide

theorem isAlpha_blank : isAlpha blank = false := rfl

/-! ## The text for a buffer -/

/-- What precedes a letter: nothing, the end of another letter, or the end of a word. -/
inductive Gap where
  | none
  | letter
  | word
  deriving DecidableEq

def Gap.text : Gap → List UInt8
  | .none => []
  | .letter => [blank]
  | .word => [blank, blank, blank]

/-- A blank turns the gap between two letters into the gap between two words. -/
def Gap.spaced : Gap → Gap
  | .none => .none
  | _ => .word

/-- The letters of a buffer, each with the gap before it; `g` is the gap so far. -/
def scriptFrom (g : Gap) : List UInt8 → List (Gap × UInt8)
  | [] => []
  | b :: bs =>
    if isAlpha b then (g, b) :: scriptFrom .letter bs
    else scriptFrom (if b = blank then g.spaced else g) bs

def script (bytes : List UInt8) : List (Gap × UInt8) := scriptFrom .none bytes

def scriptText (s : List (Gap × UInt8)) : List UInt8 := s.flatMap fun p => p.1.text ++ letterText p.2

/-- The text for a buffer: its letters in order, one blank between two letters, three where a
blank lies between them, and a newline at the end. -/
def encoding (bytes : List UInt8) : List UInt8 := scriptText (script bytes) ++ [newline]

theorem scriptFrom_ignored {bs : List UInt8} (h : ∀ b ∈ bs, isAlpha b = false) (g : Gap) :
    scriptFrom g bs = [] := by
  induction bs generalizing g with
  | nil => rfl
  | cons b bs ih =>
    rw [scriptFrom, if_neg (by simp [h b]), ih fun b hb => h b (List.mem_cons_of_mem _ hb)]

/-- Skipping to the next letter leaves a word gap exactly when a blank is skipped. -/
theorem scriptFrom_skip {pre : List UInt8} (h : ∀ b ∈ pre, isAlpha b = false) (g : Gap)
    {l : UInt8} (hl : isAlpha l = true) (post : List UInt8) :
    scriptFrom g (pre ++ l :: post) =
      (if blank ∈ pre then g.spaced else g, l) :: scriptFrom .letter post := by
  induction pre generalizing g with
  | nil => simp [scriptFrom, hl]
  | cons b pre ih =>
    have hb : isAlpha b = false := h b List.mem_cons_self
    have hsp : g.spaced.spaced = g.spaced := by cases g <;> rfl
    rw [List.cons_append, scriptFrom, if_neg (by simp [hb]),
      ih fun b hb => h b (List.mem_cons_of_mem _ hb)]
    by_cases hbl : b = blank
    · simp [hbl, hsp]
    · simp [hbl, Ne.symm hbl]

/-- What follows the last letter leaves no trace. -/
theorem scriptFrom_append_ignored {bs : List UInt8} (h : ∀ b ∈ bs, isAlpha b = false) (g : Gap)
    (as : List UInt8) : scriptFrom g (as ++ bs) = scriptFrom g as := by
  induction as generalizing g with
  | nil => exact scriptFrom_ignored h g
  | cons a as ih => simp only [List.cons_append, scriptFrom, ih]

theorem scriptFrom_isAlpha {g : Gap} {bs : List UInt8} :
    ∀ p ∈ scriptFrom g bs, isAlpha p.2 = true := by
  induction bs generalizing g with
  | nil => intro p hp; cases hp
  | cons b bs ih =>
    intro p hp
    unfold scriptFrom at hp
    split at hp
    · rename_i hb
      rcases List.mem_cons.mp hp with rfl | hp
      · exact hb
      · exact ih p hp
    · exact ih p hp

/-- The gap before a letter is `none` for the first letter only. -/
theorem scriptFrom_gap {g : Gap} {bs : List UInt8} (hg : g ≠ .none) :
    ∀ p ∈ scriptFrom g bs, p.1 ≠ .none := by
  induction bs generalizing g with
  | nil => intro p hp; cases hp
  | cons b bs ih =>
    intro p hp
    unfold scriptFrom at hp
    split at hp
    · rcases List.mem_cons.mp hp with rfl | hp
      · exact hg
      · exact ih (by decide) p hp
    · refine ih ?_ p hp
      split
      · cases g <;> simp_all [Gap.spaced]
      · exact hg

/-! ## Messages -/

/-- The letters of a piece of a buffer, upper-cased. -/
def wordOf (bs : List UInt8) : List UInt8 := (bs.filter isAlpha).map upper

/-- The message: the words between blanks, letters upper-cased, all other bytes dropped. -/
def message (bytes : List UInt8) : List (List UInt8) :=
  ((bytes.splitOn blank).map wordOf).filter (· ≠ [])

/-- The text for a list of words. -/
def encodeMessage (ws : List (List UInt8)) : List UInt8 :=
  Gap.word.text.intercalate (ws.map fun w => Gap.letter.text.intercalate (w.map letterText)) ++
    [newline]

/-- Read a text: blanks separate letters, and an empty place between blanks separates words. -/
def decode (text : List UInt8) : List (List UInt8) :=
  ((((text.takeWhile (· ≠ newline)).splitOn blank).splitOn []).filter (· ≠ [])).map
    (·.map letterOf)

/-- The words of a script. -/
def scriptWords : List (Gap × UInt8) → List (List UInt8)
  | [] => []
  | (_, b) :: rest =>
    match rest with
    | [] => [[upper b]]
    | (.word, _) :: _ => [upper b] :: scriptWords rest
    | _ => (scriptWords rest).modifyHead (upper b :: ·)

/-! ## The words of a buffer are the words of its script -/

theorem splitOn_eq_cons (bs : List UInt8) :
    ∃ c cs, bs.splitOn blank = c :: cs :=
  List.exists_cons_of_ne_nil (List.splitOn_ne_nil blank bs)

theorem message_blank (bs : List UInt8) : message (blank :: bs) = message bs := by
  simp [message, List.splitOn_cons_eq_if_modifyHead, wordOf]

/-- A byte that is neither a letter nor a blank is dropped. -/
theorem message_ignored {b : UInt8} (hb : isAlpha b = false) (hne : b ≠ blank) (bs : List UInt8) :
    message (b :: bs) = message bs := by
  obtain ⟨c, cs, hc⟩ := splitOn_eq_cons bs
  have hw : wordOf (b :: c) = wordOf c := by simp [wordOf, hb]
  simp [message, List.splitOn_cons_eq_if_modifyHead, hne, hc, List.filter_cons, hw]

theorem message_letter {b : UInt8} (hb : isAlpha b = true) {bs c : List UInt8}
    {cs : List (List UInt8)} (hc : bs.splitOn blank = c :: cs) :
    message (b :: bs) = (upper b :: wordOf c) :: (cs.map wordOf).filter (· ≠ []) := by
  have hne : b ≠ blank := fun h => by rw [h, isAlpha_blank] at hb; cases hb
  have hw : wordOf (b :: c) = upper b :: wordOf c := by simp [wordOf, hb]
  simp [message, List.splitOn_cons_eq_if_modifyHead, hne, hc, hw]

/-- Once a word gap is open it stays open up to the next letter. -/
theorem scriptFrom_word_head {bs : List UInt8} {g : Gap} {l : UInt8} {rest : List (Gap × UInt8)}
    (h : scriptFrom .word bs = (g, l) :: rest) : g = .word := by
  induction bs with
  | nil => cases h
  | cons b bs ih =>
    unfold scriptFrom at h
    split at h
    · cases h; rfl
    · exact ih (by simpa [Gap.spaced] using h)

/-- After a letter, the next letter belongs to the same word exactly when the first piece of
what follows has a letter. -/
theorem scriptFrom_letter_head {bs c : List UInt8} {cs : List (List UInt8)}
    (hc : bs.splitOn blank = c :: cs) :
    (wordOf c ≠ [] → ∃ l rest, scriptFrom .letter bs = (.letter, l) :: rest) ∧
      (wordOf c = [] → ∀ g l rest, scriptFrom .letter bs = (g, l) :: rest → g = .word) := by
  induction bs generalizing c cs with
  | nil =>
    cases hc
    exact ⟨fun h => absurd rfl h, fun _ g l rest h => by cases h⟩
  | cons b bs ih =>
    obtain ⟨c', cs', hc'⟩ := splitOn_eq_cons bs
    rw [List.splitOn_cons_eq_if_modifyHead, hc'] at hc
    by_cases hbl : b = blank
    · subst hbl
      simp only [beq_self_eq_true, if_true] at hc
      cases hc
      refine ⟨fun h => absurd rfl h, fun _ g l rest h => ?_⟩
      rw [scriptFrom, isAlpha_blank] at h
      exact scriptFrom_word_head (by simpa [Gap.spaced] using h)
    · simp only [beq_iff_eq, hbl, if_false, List.modifyHead_cons] at hc
      cases hc
      by_cases hb : isAlpha b = true
      · refine ⟨fun _ => ⟨b, _, by rw [scriptFrom, if_pos hb]⟩, fun h => ?_⟩
        simp [wordOf, hb] at h
      · have hw : wordOf (b :: c') = wordOf c' := by simp [wordOf, hb]
        rw [scriptFrom, if_neg hb, if_neg hbl, hw]
        exact ih hc'

theorem message_cons {bs c : List UInt8} {cs : List (List UInt8)} (hc : bs.splitOn blank = c :: cs) :
    message bs = if wordOf c = [] then (cs.map wordOf).filter (· ≠ [])
      else wordOf c :: (cs.map wordOf).filter (· ≠ []) := by
  simp [message, hc, List.filter_cons]

theorem scriptWords_last (g : Gap) (b : UInt8) : scriptWords [(g, b)] = [[upper b]] := rfl

theorem scriptWords_word (g : Gap) (b l : UInt8) (rest : List (Gap × UInt8)) :
    scriptWords ((g, b) :: (.word, l) :: rest) = [upper b] :: scriptWords ((.word, l) :: rest) := rfl

theorem scriptWords_letter (g : Gap) (b l : UInt8) (rest : List (Gap × UInt8)) :
    scriptWords ((g, b) :: (.letter, l) :: rest) =
      (scriptWords ((.letter, l) :: rest)).modifyHead (upper b :: ·) := rfl

/-- **The words of a buffer are the words of its script.** -/
theorem scriptWords_scriptFrom (g : Gap) (bs : List UInt8) :
    scriptWords (scriptFrom g bs) = message bs := by
  induction bs generalizing g with
  | nil => rfl
  | cons b bs ih =>
    unfold scriptFrom
    split
    · rename_i hb
      obtain ⟨c, cs, hc⟩ := splitOn_eq_cons bs
      obtain ⟨hsame, hnew⟩ := scriptFrom_letter_head hc
      have ih' := ih .letter
      rw [message_cons hc] at ih'
      rw [message_letter hb hc]
      by_cases hw : wordOf c = []
      · -- the word ends with `b`
        rw [if_pos hw] at ih'
        cases hs : scriptFrom .letter bs with
        | nil =>
          rw [hs] at ih'
          rw [← ih', scriptWords_last, hw]
          rfl
        | cons p rest =>
          obtain ⟨g', l⟩ := p
          obtain rfl := hnew hw _ _ _ hs
          rw [hs] at ih'
          rw [scriptWords_word, ih', hw]
      · rw [if_neg hw] at ih'
        obtain ⟨l, rest, hs⟩ := hsame hw
        rw [hs] at ih' ⊢
        rw [scriptWords_letter, ih', List.modifyHead_cons]
    · rename_i hb
      rw [ih]
      by_cases hbl : b = blank
      · rw [hbl, message_blank]
      · rw [message_ignored (by simpa using hb) hbl]

/-! ## The text of a script, by words -/

theorem letterText_spec {g : Gap} {b : UInt8} {rest : List (Gap × UInt8)}
    (h : ∀ p ∈ (g, b) :: rest, isAlpha p.2 = true) :
    isAlpha b = true ∧ ∀ p ∈ rest, isAlpha p.2 = true :=
  ⟨h (g, b) List.mem_cons_self, fun p hp => h p (List.mem_cons_of_mem _ hp)⟩

/-- The text for a list of words, without the newline. -/
def joinWords (ws : List (List UInt8)) : List UInt8 :=
  Gap.word.text.intercalate (ws.map fun w => Gap.letter.text.intercalate (w.map letterText))

theorem joinWords_cons {w : List UInt8} {ws : List (List UInt8)} (h : ws ≠ []) :
    joinWords (w :: ws) =
      Gap.letter.text.intercalate (w.map letterText) ++ Gap.word.text ++ joinWords ws := by
  obtain ⟨w', ws', rfl⟩ := List.exists_cons_of_ne_nil h
  simp [joinWords]

theorem joinWords_push {b : UInt8} {w : List UInt8} (h : w ≠ []) (ws : List (List UInt8)) :
    joinWords ((b :: w) :: ws) = letterText b ++ Gap.letter.text ++ joinWords (w :: ws) := by
  obtain ⟨a, w', rfl⟩ := List.exists_cons_of_ne_nil h
  cases ws <;> simp [joinWords]

/-- The first word of a script starts with its first letter. -/
theorem scriptWords_cons (g : Gap) (b : UInt8) (rest : List (Gap × UInt8)) :
    ∃ w ws, scriptWords ((g, b) :: rest) = (upper b :: w) :: ws := by
  induction rest generalizing g b with
  | nil => exact ⟨[], [], rfl⟩
  | cons p rest ih =>
    obtain ⟨g', l⟩ := p
    obtain ⟨w, ws, h⟩ := ih g' l
    cases g' with
    | word => exact ⟨[], _, rfl⟩
    | letter => exact ⟨_, ws, by rw [scriptWords_letter, h, List.modifyHead_cons]⟩
    | none => exact ⟨_, ws, congrArg (List.modifyHead (upper b :: ·)) h⟩

/-- Joining the words of a script gives its text, less the gap before the first letter. -/
theorem joinWords_scriptWords {g : Gap} {b : UInt8} {rest : List (Gap × UInt8)}
    (hl : ∀ p ∈ (g, b) :: rest, isAlpha p.2 = true) (hg : ∀ p ∈ rest, p.1 ≠ .none) :
    joinWords (scriptWords ((g, b) :: rest)) = letterText b ++ scriptText rest := by
  induction rest generalizing g b with
  | nil =>
    simp [scriptWords_last, joinWords, scriptText, letterText_upper (letterText_spec hl).1]
  | cons p rest ih =>
    obtain ⟨g', l⟩ := p
    obtain ⟨hb, hrest⟩ := letterText_spec hl
    have ih' := ih hrest fun p hp => hg p (List.mem_cons_of_mem _ hp)
    obtain ⟨w, ws, hw⟩ := scriptWords_cons g' l rest
    have htext : scriptText ((g', l) :: rest) = g'.text ++ letterText l ++ scriptText rest := by
      simp [scriptText]
    cases g' with
    | none => exact absurd rfl (hg _ List.mem_cons_self)
    | letter =>
      rw [scriptWords_letter, hw, List.modifyHead_cons, joinWords_push (by simp), ← hw, ih', htext,
        letterText_upper hb]
      simp
    | word =>
      rw [scriptWords_word, joinWords_cons (by rw [hw]; simp), ih', htext]
      simp [letterText_upper hb]

theorem scriptFrom_tail_gap {g : Gap} {bs : List UInt8} {p : Gap × UInt8}
    {rest : List (Gap × UInt8)} (h : scriptFrom g bs = p :: rest) : ∀ q ∈ rest, q.1 ≠ .none := by
  induction bs generalizing g with
  | nil => cases h
  | cons b bs ih =>
    unfold scriptFrom at h
    split at h
    · cases h; exact scriptFrom_gap (by decide)
    · exact ih h

theorem script_head_gap {bs : List UInt8} {p : Gap × UInt8} {rest : List (Gap × UInt8)}
    (h : scriptFrom .none bs = p :: rest) : p.1 = .none := by
  induction bs with
  | nil => cases h
  | cons b bs ih =>
    unfold scriptFrom at h
    split at h
    · cases h; rfl
    · exact ih (by simpa [Gap.spaced] using h)

/-- **Re-encoding**: the text for a buffer is the text for its message. -/
theorem encodeMessage_message (bytes : List UInt8) : encodeMessage (message bytes) = encoding bytes := by
  have hw := scriptWords_scriptFrom .none bytes
  have hl := @scriptFrom_isAlpha .none bytes
  change joinWords (message bytes) ++ [newline] = scriptText (scriptFrom .none bytes) ++ [newline]
  rw [← hw]
  cases hs : scriptFrom .none bytes with
  | nil => rfl
  | cons p rest =>
    obtain ⟨g, b⟩ := p
    obtain rfl : g = .none := script_head_gap hs
    rw [hs] at hl
    rw [joinWords_scriptWords hl (scriptFrom_tail_gap hs)]
    simp [scriptText, Gap.text]

/-! ## Reading a text -/

/-- The pieces between the blanks of the text of the later letters of a script. -/
def pieces : List (Gap × UInt8) → List (List UInt8)
  | [] => []
  | (.word, b) :: rest => [] :: [] :: letterText b :: pieces rest
  | (_, b) :: rest => letterText b :: pieces rest

theorem splitOn_scriptText {b : UInt8} {rest : List (Gap × UInt8)} (hb : isAlpha b = true)
    (hl : ∀ p ∈ rest, isAlpha p.2 = true) (hg : ∀ p ∈ rest, p.1 ≠ .none) :
    (letterText b ++ scriptText rest).splitOn blank = letterText b :: pieces rest := by
  induction rest generalizing b with
  | nil =>
    simp only [scriptText, List.flatMap_nil, List.append_nil, pieces]
    exact List.splitOn_eq_singleton (blank_notMem_letterText hb)
  | cons p rest ih =>
    obtain ⟨g, l⟩ := p
    obtain ⟨hlb, hrest⟩ := letterText_spec hl
    have ih' := ih hlb hrest fun p hp => hg p (List.mem_cons_of_mem _ hp)
    have htext : scriptText ((g, l) :: rest) = g.text ++ (letterText l ++ scriptText rest) := by
      simp [scriptText]
    rw [htext]
    cases g with
    | none => exact absurd rfl (hg _ List.mem_cons_self)
    | letter =>
      rw [Gap.text, List.singleton_append,
        List.splitOn_append_cons_self_of_not_mem (blank_notMem_letterText hb), ih']
      rfl
    | word =>
      simp only [Gap.text, List.cons_append, List.nil_append]
      rw [List.splitOn_append_cons_self_of_not_mem (blank_notMem_letterText hb)]
      simp only [List.splitOn_cons_eq_if_modifyHead, beq_self_eq_true, if_true, ih']
      rfl

/-- Empty pieces separate words. -/
theorem words_pieces {g : Gap} {b : UInt8} {rest : List (Gap × UInt8)}
    (hl : ∀ p ∈ (g, b) :: rest, isAlpha p.2 = true) (hg : ∀ p ∈ rest, p.1 ≠ .none) :
    ∃ w ws, (letterText b :: pieces rest).splitOn [] = (letterText b :: w) :: ws ∧
      (letterText b :: w) :: ws.filter (· ≠ []) =
        (scriptWords ((g, b) :: rest)).map (·.map letterText) := by
  induction rest generalizing g b with
  | nil =>
    refine ⟨[], [], ?_, ?_⟩
    · simp [pieces, List.splitOn_cons_eq_if_modifyHead, letterText_ne_nil (letterText_spec hl).1]
    · simp [scriptWords_last, letterText_upper (letterText_spec hl).1]
  | cons p rest ih =>
    obtain ⟨g', l⟩ := p
    obtain ⟨hb, hrest⟩ := letterText_spec hl
    obtain ⟨w, ws, hsplit, hws⟩ := ih hrest fun p hp => hg p (List.mem_cons_of_mem _ hp)
    have hne := letterText_ne_nil hb
    cases g' with
    | none => exact absurd rfl (hg _ List.mem_cons_self)
    | letter =>
      refine ⟨letterText l :: w, ws, ?_, ?_⟩
      · simp [pieces, List.splitOn_cons_eq_if_modifyHead (letterText b), hne, hsplit]
      · obtain ⟨v, vs, hv⟩ := scriptWords_cons .letter l rest
        rw [scriptWords_letter, hv, List.modifyHead_cons, List.map_cons, List.map_cons,
          letterText_upper hb]
        rw [hv, List.map_cons] at hws
        obtain ⟨h1, h2⟩ := List.cons.inj hws
        rw [h1, h2]
    | word =>
      refine ⟨[], [] :: (letterText l :: w) :: ws, ?_, ?_⟩
      · rw [pieces, List.splitOn_cons_eq_if_modifyHead, if_neg (by simpa using hne),
          List.splitOn_cons_eq_if_modifyHead, List.splitOn_cons_eq_if_modifyHead, hsplit]
        rfl
      · rw [scriptWords_word, List.map_cons, ← hws]
        simp [letterText_upper hb]

theorem newline_notMem_scriptText {s : List (Gap × UInt8)} (hl : ∀ p ∈ s, isAlpha p.2 = true) :
    ∀ c ∈ scriptText s, c ≠ newline := by
  intro c hc
  obtain ⟨⟨g, b⟩, hp, hc⟩ := List.mem_flatMap.mp hc
  rcases List.mem_append.mp hc with h | h
  · cases g <;> simp [Gap.text] at h <;> subst h <;> decide
  · rcases letterText_symbols (hl _ hp) c h with rfl | rfl <;> decide

theorem takeWhile_encoding (bytes : List UInt8) :
    (encoding bytes).takeWhile (· ≠ newline) = scriptText (script bytes) := by
  rw [encoding, List.takeWhile_append_of_pos]
  · simp
  · intro c hc
    simpa using newline_notMem_scriptText scriptFrom_isAlpha c hc

/-- The letters in a message are upper-case, so they survive being written and read. -/
theorem letterOf_message {bytes : List UInt8} :
    (message bytes).map (fun w => (w.map letterText).map letterOf) = message bytes := by
  have h : ∀ w ∈ message bytes, (w.map letterText).map letterOf = w := by
    intro w hw
    obtain ⟨c, -, rfl⟩ := List.mem_map.mp (List.mem_filter.mp hw).1
    simp only [wordOf, List.map_map]
    refine List.map_congr_left fun b hb => ?_
    have hb' := (List.mem_filter.mp hb).2
    simp only [Function.comp, letterText_upper hb', letterOf_letterText hb']
  calc (message bytes).map (fun w => (w.map letterText).map letterOf)
      = (message bytes).map id := List.map_congr_left h
    _ = message bytes := List.map_id _

/-- **Decoding**: the message of a buffer can be read off the text for it. -/
theorem decode_encoding (bytes : List UInt8) : decode (encoding bytes) = message bytes := by
  have hw := scriptWords_scriptFrom .none bytes
  have hl := @scriptFrom_isAlpha .none bytes
  rw [decode, takeWhile_encoding]
  change (((((scriptText (scriptFrom .none bytes)).splitOn blank).splitOn []).filter (· ≠ [])).map
    (·.map letterOf)) = _
  cases hs : scriptFrom .none bytes with
  | nil => rw [← hw, hs]; decide
  | cons p rest =>
    obtain ⟨g, b⟩ := p
    obtain rfl : g = .none := script_head_gap hs
    rw [hs] at hl hw
    have hg := scriptFrom_tail_gap hs
    obtain ⟨hb, hrest⟩ := letterText_spec hl
    obtain ⟨w, ws, hsplit, hws⟩ := words_pieces hl hg
    have htext : scriptText ((.none, b) :: rest) = letterText b ++ scriptText rest := by
      simp [scriptText, Gap.text]
    rw [htext, splitOn_scriptText hb hrest hg, hsplit, List.filter_cons_of_pos (by simp), hws, hw,
      List.map_map]
    exact letterOf_message

end Morse
