import Cmpt433.Morse.Encode

/-!
# The LED says what the text says

`signal` is the LED's level for every millisecond from entry to return (time passes only in
`msleep`); `translate` reads a text as LED levels, in dot times.  For a write whose text fits
into the FIFO the two agree (`led_agrees`).

Both are built from *segments*, pairs of a level and a duration: `segments` in milliseconds from
the actions, `translate` in dot times from the text.
-/

set_option autoImplicit false

namespace Morse

open Interaction

/-! ## Signals -/

/-- A level and how long it lasts. -/
abbrev Segment := Bool × Nat

/-- The level at every time unit. -/
def levels (ss : List Segment) : List Bool := ss.flatMap fun s => List.replicate s.2 s.1

/-- The stretches of time between the actions; `led` is the level so far. -/
def segments : Bool → List Out → List Segment
  | _, [] => []
  | _, .led full :: os => segments full os
  | led, .sleep ms :: os => (led, ms) :: segments led os
  | led, .put _ _ :: os => segments led os

/-- The level the LED is left at. -/
def ledAfter : Bool → List Out → Bool
  | led, [] => led
  | _, .led full :: os => ledAfter full os
  | led, .sleep _ :: os => ledAfter led os
  | led, .put _ _ :: os => ledAfter led os

/-- The LED's level at every millisecond. -/
def signal (led : Bool) (os : List Out) : List Bool := levels (segments led os)

def isSymbol (c : UInt8) : Bool := c == dot || c == dash

/-- One unit for a dot, three for a dash. -/
def symbolSegment (c : UInt8) : Segment := (true, if c = dash then 3 else 1)

/-- The LED levels a text stands for, in dot times: a unit of darkness between two symbols of a
letter, three for a blank, seven for three blanks; the newline takes no time. -/
def translate : List UInt8 → List Segment
  | [] => []
  | c :: t =>
    if isSymbol c then
      symbolSegment c :: (if t.head?.any isSymbol then (false, 1) :: translate t else translate t)
    else if c = blank then
      if t.take 2 = [blank, blank] then (false, 7) :: translate (t.drop 2)
      else (false, 3) :: translate t
    else translate t
termination_by t => t.length
decreasing_by all_goals simp

/-- A duration in dot times as one in milliseconds. -/
def Segment.inMs (s : Segment) : Segment := (s.1, s.2 * LED_DOT_TIME)

theorem segments_append (led : Bool) (xs ys : List Out) :
    segments led (xs ++ ys) = segments led xs ++ segments (ledAfter led xs) ys := by
  induction xs generalizing led with
  | nil => rfl
  | cons x xs ih => cases x <;> simp [segments, ledAfter, ih]

theorem ledAfter_append (led : Bool) (xs ys : List Out) :
    ledAfter led (xs ++ ys) = ledAfter (ledAfter led xs) ys := by
  induction xs generalizing led with
  | nil => rfl
  | cons x xs ih => cases x <;> simp [ledAfter, ih]

/-- Segments in dot times, seen at every millisecond. -/
theorem levels_inMs (ss : List Segment) :
    levels (ss.map Segment.inMs) = (levels ss).flatMap (List.replicate LED_DOT_TIME) := by
  induction ss with
  | nil => rfl
  | cons s ss ih =>
    have hrep : ∀ n (b : Bool), List.replicate (n * LED_DOT_TIME) b =
        (List.replicate n b).flatMap (List.replicate LED_DOT_TIME) := by
      intro n b
      induction n with
      | zero => simp
      | succ n ihn =>
        rw [Nat.succ_mul, Nat.add_comm, List.replicate_add, ihn, List.replicate_succ,
          List.flatMap_cons]
    rw [levels, List.map_cons, List.flatMap_cons, levels, List.flatMap_cons, List.flatMap_append,
      ← hrep]
    exact congrArg _ ih

/-! ## Letters -/

/-- The segments of a row of symbols. -/
def symbolSegments : List UInt8 → List Segment
  | [] => []
  | [c] => [symbolSegment c]
  | c :: d :: cs => symbolSegment c :: (false, 1) :: symbolSegments (d :: cs)

theorem symbolOuts_segments (led : Bool) (c : UInt8) :
    segments led (symbolOuts c) = [(symbolSegment c).inMs] ∧ ledAfter led (symbolOuts c) = true := by
  constructor
  · by_cases h : c = dash <;> simp [symbolOuts, segments, symbolSegment, Segment.inMs, h, Nat.mul_comm]
  · rfl

/-- A letter's flashes last as long as its symbols say, and leave the LED on. -/
theorem symbols_segments (led : Bool) {cs : List UInt8} (h : cs ≠ []) :
    segments led (symbolGapOuts.intercalate (cs.map symbolOuts)) =
        (symbolSegments cs).map Segment.inMs ∧
      ledAfter led (symbolGapOuts.intercalate (cs.map symbolOuts)) = true := by
  induction cs generalizing led with
  | nil => exact absurd rfl h
  | cons c cs ih =>
    obtain ⟨h1, h2⟩ := symbolOuts_segments led c
    cases cs with
    | nil => simp [h1, h2, symbolSegments]
    | cons d cs =>
      obtain ⟨h3, h4⟩ := ih false (by simp)
      simp only [List.map_cons] at h3 h4 ⊢
      rw [List.intercalate_cons_cons, List.append_assoc, segments_append, segments_append,
        ledAfter_append, ledAfter_append, h1, h2]
      have hoff : ledAfter true symbolGapOuts = false := rfl
      rw [hoff, h3, h4]
      exact ⟨rfl, rfl⟩

/-- A row of symbols is translated symbol by symbol, up to what is no symbol. -/
theorem translate_symbols {cs : List UInt8} (hne : cs ≠ []) (h : ∀ c ∈ cs, isSymbol c = true)
    {t : List UInt8} (ht : t.head?.any isSymbol = false) :
    translate (cs ++ t) = symbolSegments cs ++ translate t := by
  induction cs with
  | nil => exact absurd rfl hne
  | cons c cs ih =>
    have hc := h c List.mem_cons_self
    cases cs with
    | nil =>
      rw [List.singleton_append, translate, if_pos hc, if_neg (by simp [ht])]
      rfl
    | cons d cs =>
      have hd := h d (List.mem_cons_of_mem _ List.mem_cons_self)
      have ih' := ih (by simp) fun x hx => h x (List.mem_cons_of_mem _ hx)
      rw [List.cons_append, translate, if_pos hc, if_pos (by simp [hd]), ih']
      rfl

theorem isSymbol_letterText {b : UInt8} (h : isAlpha b = true) :
    ∀ c ∈ letterText b, isSymbol c = true := by
  intro c hc
  rcases letterText_symbols h c hc with rfl | rfl <;> rfl

/-! ## Scripts -/

def gapSegments : Gap → List Segment
  | .none => []
  | .letter => [(false, 3)]
  | .word => [(false, 7)]

theorem gapOuts_segments (led : Bool) (g : Gap) :
    segments led (gapOuts g) = (gapSegments g).map Segment.inMs := by
  cases g <;> rfl

/-- The segments of a script, in dot times. -/
def scriptSegments (s : List (Gap × UInt8)) : List Segment :=
  s.flatMap fun p => gapSegments p.1 ++ symbolSegments (letterText p.2)

theorem scriptOuts_segments (led : Bool) {s : List (Gap × UInt8)}
    (hl : ∀ p ∈ s, isAlpha p.2 = true) :
    segments led (scriptOuts s) = (scriptSegments s).map Segment.inMs := by
  induction s generalizing led with
  | nil => rfl
  | cons p s ih =>
    obtain ⟨g, b⟩ := p
    obtain ⟨hb, hs⟩ := letterText_spec hl
    obtain ⟨h1, -⟩ := symbols_segments (ledAfter led (gapOuts g)) (letterText_ne_nil hb)
    rw [scriptOuts_cons, segments_append, segments_append, gapOuts_segments, letterOuts, h1, ih _ hs]
    simp [scriptSegments]

/-- What follows a letter in a text is a blank or the newline. -/
theorem scriptText_head {s : List (Gap × UInt8)} (hg : ∀ p ∈ s, p.1 ≠ .none) :
    (scriptText s ++ [newline]).head?.any isSymbol = false := by
  cases s with
  | nil => rfl
  | cons p s =>
    obtain ⟨g, b⟩ := p
    cases g with
    | none => exact absurd rfl (hg _ List.mem_cons_self)
    | letter => rfl
    | word => rfl

theorem translate_gap {g : Gap} {c : UInt8} {t : List UInt8} (hc : isSymbol c = true) :
    translate (g.text ++ c :: t) = gapSegments g ++ translate (c :: t) := by
  have hne : c ≠ blank := by rintro rfl; cases hc
  have hblank : isSymbol blank = false := rfl
  cases g with
  | none => rfl
  | letter =>
    change translate (blank :: c :: t) = (false, 3) :: translate (c :: t)
    rw [translate, hblank, if_neg Bool.false_ne_true, if_pos rfl, if_neg (by simp [hne])]
  | word =>
    change translate (blank :: blank :: blank :: c :: t) = (false, 7) :: translate (c :: t)
    rw [translate, hblank, if_neg Bool.false_ne_true, if_pos rfl, if_pos (by rfl)]
    rfl

/-- **The text of a script is translated gap by gap and letter by letter.** -/
theorem translate_scriptText {s : List (Gap × UInt8)} (hl : ∀ p ∈ s, isAlpha p.2 = true)
    (hg : ∀ p ∈ s.tail, p.1 ≠ .none) :
    translate (scriptText s ++ [newline]) = scriptSegments s := by
  induction s with
  | nil => simp [scriptText, translate, newline, blank, isSymbol, dot, dash, scriptSegments]
  | cons p s ih =>
    obtain ⟨g, b⟩ := p
    obtain ⟨hb, hs⟩ := letterText_spec hl
    have ih' := ih hs fun p hp => hg p (List.mem_of_mem_tail hp)
    have htext : scriptText ((g, b) :: s) ++ [newline] =
        g.text ++ (letterText b ++ (scriptText s ++ [newline])) := by simp [scriptText]
    obtain ⟨c, cs, hcs⟩ := List.exists_cons_of_ne_nil (letterText_ne_nil hb)
    have hsym := isSymbol_letterText hb
    have hlet := translate_symbols (letterText_ne_nil hb) hsym (@scriptText_head s hg)
    rw [htext, hcs, List.cons_append, translate_gap (hsym c (by rw [hcs]; exact List.mem_cons_self)),
      ← List.cons_append, ← hcs, hlet, ih']
    simp [scriptSegments]

/-! ## The whole write -/

/-- **The LED's signal during a write is the translation of its text**, and the LED is off at the
end. -/
theorem writeOuts_signal (bytes : List UInt8) :
    signal false (writeOuts (script bytes)) =
        (levels (translate (encoding bytes))).flatMap (List.replicate LED_DOT_TIME) ∧
      ledAfter false (writeOuts (script bytes)) = false := by
  have hl : ∀ p ∈ script bytes, isAlpha p.2 = true := scriptFrom_isAlpha
  have hg : ∀ p ∈ (script bytes).tail, p.1 ≠ .none := by
    cases hs : script bytes with
    | nil => intro p hp; cases hp
    | cons p s => exact scriptFrom_tail_gap hs
  constructor
  · rw [signal, writeOuts, segments_append, scriptOuts_segments _ hl, encoding,
      translate_scriptText hl hg, ← levels_inMs]
    simp [segments]
  · rw [writeOuts, ledAfter_append]
    rfl

/-- **The LED and the text agree**: during a write whose text fits into the FIFO, with the LED off
at first, the LED's level at every millisecond is the translation of the text appended, and
the LED is off at return. -/
theorem led_agrees_with_text {u : UserBuf} {bytes : List UInt8} (h : u.Holds bytes)
    (hletter : ∃ b ∈ bytes, isAlpha b = true) (ppos : Int) (q : Fifo)
    (hfit : (encoding bytes).length ≤ q.free) :
    ∃ text, (run fifo (my_write u ppos) q).state.content = q.content ++ text ∧
      signal false (outs (run fifo (my_write u ppos) q).events) =
        (levels (translate text)).flatMap (List.replicate LED_DOT_TIME) ∧
      ledAfter false (outs (run fifo (my_write u ppos) q).events) = false := by
  obtain ⟨hcontent, -⟩ := my_write_run h hletter ppos q
  rw [List.take_of_length_le hfit] at hcontent
  rw [my_write_outs h hletter ppos q hfit]
  exact ⟨encoding bytes, hcontent, writeOuts_signal bytes⟩

/-- On a buffer with two words. -/
theorem led_agrees_with_text_ab :
    ∃ text, (run fifo (my_write sampleBuf 0) sampleFifo).state.content =
        sampleFifo.content ++ text ∧
      signal false (outs (run fifo (my_write sampleBuf 0) sampleFifo).events) =
        (levels (translate text)).flatMap (List.replicate LED_DOT_TIME) ∧
      ledAfter false (outs (run fifo (my_write sampleBuf 0) sampleFifo).events) = false :=
  led_agrees_with_text sampleBuf_holds (by decide) 0 sampleFifo (by decide)

end Morse
