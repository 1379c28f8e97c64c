import Cmpt433.Beatbox.UdpListener

/-!
# What the web page makes of the replies (`NodeServer/public/javascripts/udp_ui.js`, `index.html`)

The page sends a request when a button is clicked, and looks in the reply for one word after the
other.  `val` sets the value of an input; `modeid` is a `span`, which shows its text.

* `commandReply` — the handler.  `uptimeString` is what it makes of the uptime in the reply, in
  floating point.
* `branch_level`, `branch_update` — no reply is taken for another one, whatever the numbers in it.
* `understood_iff` — after which requests the page shows the program's state.
-/

set_option autoImplicit false

namespace WebPage

open CString Beatbox

/-! ## The page -/

structure Span where
  text : Bytes
  /-- A property of its own, which is not shown. -/
  value : Bytes

structure Page where
  modeid : Span
  volumeid : Bytes
  tempoid : Bytes
  status : Bytes
  errorText : Bytes
  errorBox : Bool

/-- `s.includes(t)` -/
def includes (s t : Bytes) : Bool := decide (t <:+: s)

/-- `s.split(" ")` -/
def split (s : Bytes) : List Bytes := s.splitOn 32

/-- The value that an input of type `text` takes: without line breaks. -/
def inputValue (s : Bytes) : Bytes := s.filter fun b => b ≠ 10 ∧ b ≠ 13

/-- The number that `==` makes of a text, for the numerals that `%d` prints. -/
def toNumber : Bytes → Option Int
  | 45 :: ds => if ds ≠ [] ∧ ds.all isdigit then some (-digitsValue ds) else none
  | ds => if ds ≠ [] ∧ ds.all isdigit then some (digitsValue ds) else none

/-- The name of a mode, from the number in an update. -/
def modeName (update : Bytes) : Bytes :=
  if toNumber update = some 1 then lit "None"
  else if toNumber update = some 2 then lit "Rock"
  else lit "Hannah Montana"

inductive Branch where
  | volume
  | tempo
  | mode
  | update
  | error
  deriving DecidableEq

/-- The tests of the handler, in their order. -/
def branch (result : Bytes) : Option Branch :=
  if includes result (lit "volume") then some .volume
  else if includes result (lit "tempo") then some .tempo
  else if includes result (lit "mode") then some .mode
  else if includes result (lit "update") then some .update
  else if includes result (lit "Error") then some .error
  else none

/-- `result.split(" ")[i]`; `val` makes the empty text of `undefined`. -/
def word (result : Bytes) (i : Nat) : Bytes := (split result).getD i []

def commandReply (uptimeString : Option Bytes → Bytes) (result : Bytes) (page : Page) : Page :=
  match branch result with
  | some .volume => { page with volumeid := inputValue (word result 2) }
  | some .tempo => { page with tempoid := inputValue (word result 2) }
  | some .mode => { page with modeid := { page.modeid with value := word result 2 } }
  | some .update =>
    { page with
      errorBox := false
      tempoid := inputValue (word result 1)
      volumeid := inputValue (word result 2)
      modeid := { page.modeid with text := modeName (word result 3) }
      status := lit "Device uptime = " ++ uptimeString (split result)[4]? }
  | some .error => { page with errorText := result, errorBox := true }
  | none => page

/-! ## The requests -/

/-- What the page sends for a command. -/
def sent : Command → String
  | .modeNone => "modeNone"
  | .modeRock => "modeRock"
  | .modeCustom => "modeCustom"
  | .volumeUp => "volumeUp"
  | .volumeDown => "volumeDown"
  | .tempoUp => "tempoUp"
  | .tempoDown => "tempoDown"
  | .getvol => "getvolume"
  | .gettempo => "gettempo"
  | .getUpdates => "getUpdates"

/-- The branch that is meant for the reply. -/
def meant : Command → Branch
  | .modeNone | .modeRock | .modeCustom => .mode
  | .volumeUp | .volumeDown | .getvol => .volume
  | .tempoUp | .tempoDown | .gettempo => .tempo
  | .getUpdates => .update

/-- The three displays. -/
structure Shown where
  mode : Bytes
  volume : Bytes
  tempo : Bytes
  deriving DecidableEq

def Page.shown (page : Page) : Shown := ⟨page.modeid.text, page.volumeid, page.tempoid⟩

/-- The page's name of a mode. -/
def nameOf (mode : Int) : Bytes :=
  if mode = beatMode.NONE.value then lit "None"
  else if mode = beatMode.ROCK.value then lit "Rock"
  else lit "Hannah Montana"

/-- The program's state in the words of the page. -/
def stateShown (c : Controls) : Shown :=
  ⟨nameOf c.currentMode, decimal (AudioMixer_getVolume c), decimal (AudioMixer_getTempo c)⟩

/-- What should be shown after a reply that is meant for a branch. -/
def expected (c : Controls) (before : Shown) : Branch → Shown
  | .volume => { before with volume := (stateShown c).volume }
  | .tempo => { before with tempo := (stateShown c).tempo }
  | .mode => { before with mode := (stateShown c).mode }
  | .update => stateShown c
  | .error => before

/-- How the program handles the request. -/
def answered (c : Command) (w : UdpListener.World) (rx tx : Bytes) : UdpListener.Reply :=
  UdpListener.handleRequest w (terminated (lit (sent c)) rx) tx

/-- The reply is taken by the branch that is meant for it, and the page shows the state. -/
def Understood (uptimeString : Option Bytes → Bytes) (c : Command) (w : UdpListener.World)
    (rx tx : Bytes) (page : Page) : Prop :=
  ∃ text, (answered c w rx tx).sent = [text] ∧ branch text = some (meant c) ∧
    (commandReply uptimeString text page).shown =
      expected (answered c w rx tx).world.controls page.shown (meant c)

/-! ## The replies -/

def levelName : Level → String
  | .volume => "volume"
  | .tempo => "tempo"

def levelBranch : Level → Branch
  | .volume => .volume
  | .tempo => .tempo

/-- The reply that names a volume or a tempo; `first` is `new` or `current`. -/
def levelText (first : String) (x : Level) (v : Int) : Bytes :=
  lit (first ++ " " ++ levelName x ++ ": ") ++ (decimal v ++ [10])

def updateText (c : Controls) (uptime : Bytes) : Bytes :=
  lit "update: " ++ (decimal (AudioMixer_getTempo c) ++ 32 :: (decimal (AudioMixer_getVolume c) ++
    32 :: (decimal c.currentMode ++ 32 :: (uptime ++ [10]))))

/-- What `%.2f` prints of a number that is not negative. -/
def IsFixed (uptime : Bytes) : Prop := ∀ b ∈ uptime, b = 46 ∨ isdigit b

instance (uptime : Bytes) : Decidable (IsFixed uptime) :=
  inferInstanceAs (Decidable (∀ b ∈ uptime, _))

theorem answered_eq (c : Command) (w : UdpListener.World) (rx tx : Bytes) :
    answered c w rx tx = (UdpListener.Command.control c).serve w tx := by
  have hfind : (UdpListener.Command.all.find? fun c' => lit c'.name <+: lit (sent c)) =
      some (.control c) := by cases c <;> decide +kernel
  rw [answered, UdpListener.handleRequest, UdpListener.find_command, hfind]

/-- A byte that numbers and what stands between them do not have. -/
def Foreign (b : UInt8) : Prop := b ≠ 10 ∧ b ≠ 32 ∧ b ≠ 45 ∧ b ≠ 46 ∧ isdigit b = false

instance (b : UInt8) : Decidable (Foreign b) := inferInstanceAs (Decidable (_ ∧ _))

theorem not_mem_decimal {n : Int} {b : UInt8} (h45 : b ≠ 45) (hdigit : isdigit b = false) :
    b ∉ decimal n := by
  intro hb
  rcases mem_decimal hb with h | h
  · exact h45 h
  · rw [hdigit] at h
    cases h

theorem Foreign.not_mem_levelText {first : String} {x : Level} {v : Int} {b : UInt8}
    (h : Foreign b) (hlabel : b ∉ lit (first ++ " " ++ levelName x ++ ": ")) :
    b ∉ levelText first x v := by
  obtain ⟨h10, -, h45, -, hdigit⟩ := h
  unfold levelText
  rw [List.mem_append, List.mem_append, List.mem_singleton]
  rintro (hb | hb | hb)
  · exact hlabel hb
  · exact not_mem_decimal h45 hdigit hb
  · exact h10 hb

theorem Foreign.not_mem_updateText {c : Controls} {uptime : Bytes} {b : UInt8} (h : Foreign b)
    (hu : IsFixed uptime) (hlabel : b ∉ lit "update: ") : b ∉ updateText c uptime := by
  obtain ⟨h10, h32, h45, h46, hdigit⟩ := h
  have huptime : b ∉ uptime := by
    intro hb
    rcases hu b hb with h | h
    · exact h46 h
    · rw [hdigit] at h
      cases h
  have hdecimal : ∀ n, b ∉ decimal n := fun _ => not_mem_decimal h45 hdigit
  unfold updateText
  simp [hlabel, hdecimal, h32, huptime, h10]

/-- What `sprintf` leaves for `sendto`. -/
theorem reply_level (first : String) (x : Level)
    (hlabel : 0 ∉ lit (first ++ " " ++ levelName x ++ ": ")) (w : UdpListener.World) (tx : Bytes)
    (v : Int) :
    (UdpListener.reply w (strcpy tx (lit (first ++ " " ++ levelName x ++ ": " ++ toString v ++
      "\n")))).sent = [levelText first x v] := by
  have htext : lit (first ++ " " ++ levelName x ++ ": " ++ toString v ++ "\n") =
      levelText first x v := by
    rw [lit_append, lit_append, List.append_assoc]
    rfl
  have hnonzero : ∀ b ∈ levelText first x v, b ≠ 0 := by
    rintro b hb rfl
    exact Foreign.not_mem_levelText (by decide) hlabel hb
  rw [UdpListener.reply, cstring_strcpy, htext, cstring_of_nonzero hnonzero]

theorem reply_updates {w : UdpListener.World} {uptime : Bytes} (hw : w.uptime = some uptime)
    (hu : IsFixed uptime) (tx : Bytes) :
    (UdpListener.updatesRequest w tx).sent = [updateText w.controls uptime] := by
  have htext : lit ("update: " ++ toString (AudioMixer_getTempo w.controls) ++ " " ++
      toString (AudioMixer_getVolume w.controls) ++ " " ++
      (toString w.controls.currentMode ++ " ")) ++ uptime ++ lit "\n" =
      updateText w.controls uptime := by
    simp only [lit_append, List.append_assoc]
    rfl
  have hnonzero : ∀ b ∈ updateText w.controls uptime, b ≠ 0 := by
    rintro b hb rfl
    exact Foreign.not_mem_updateText (by decide) hu (by decide +kernel) hb
  rw [UdpListener.updatesRequest, hw]
  change [cstring (strcpy tx (lit ("update: " ++ toString (AudioMixer_getTempo w.controls) ++ " " ++
      toString (AudioMixer_getVolume w.controls) ++ " " ++
      (toString w.controls.currentMode ++ " ")) ++ uptime ++ lit "\n"))] = _
  rw [cstring_strcpy, htext, cstring_of_nonzero hnonzero]

/-! ## The branch taken -/

theorem includes_of_infix {s t : Bytes} (h : t <:+: s) : includes s t = true := decide_eq_true h

/-- A text is not found where one of its bytes is missing. -/
theorem not_includes {s t : Bytes} {b : UInt8} (hb : b ∈ t) (hs : b ∉ s) :
    includes s t = false :=
  decide_eq_false fun h => hs (h.subset hb)

/-- **A reply with a level is taken for that level**, whatever the number in it. -/
theorem branch_level {first : String} (hfirst : first = "new" ∨ first = "current") (x : Level)
    (v : Int) : branch (levelText first x v) = some (levelBranch x) := by
  have hlabel : ∀ t : Bytes, t <:+: lit (first ++ " " ++ levelName x ++ ": ") →
      includes (levelText first x v) t = true :=
    fun t h => includes_of_infix (h.trans (List.prefix_append _ _).isInfix)
  unfold branch
  cases x with
  | volume =>
    rw [if_pos (hlabel _ (by rcases hfirst with rfl | rfl <;> decide +kernel))]
    rfl
  | tempo =>
    -- there is no `v` in `tempo`
    have hv : includes (levelText first .tempo v) (lit "volume") = false :=
      not_includes (b := 118) (by decide +kernel) (Foreign.not_mem_levelText (by decide)
        (by rcases hfirst with rfl | rfl <;> decide +kernel))
    rw [hv, if_neg Bool.false_ne_true,
      if_pos (hlabel _ (by rcases hfirst with rfl | rfl <;> decide +kernel))]
    rfl

/-- **An update is taken for an update.** -/
theorem branch_update {uptime : Bytes} (hu : IsFixed uptime) (c : Controls) :
    branch (updateText c uptime) = some .update := by
  have hno : ∀ {t : Bytes} {b : UInt8}, Foreign b → b ∉ lit "update: " → b ∈ t →
      includes (updateText c uptime) t = false :=
    fun h hlabel hb => not_includes hb (h.not_mem_updateText hu hlabel)
  have hvolume := hno (t := lit "volume") (b := 118) (by decide) (by decide +kernel)
    (by decide +kernel)
  have htempo := hno (t := lit "tempo") (b := 109) (by decide) (by decide +kernel)
    (by decide +kernel)
  have hmode := hno (t := lit "mode") (b := 109) (by decide) (by decide +kernel)
    (by decide +kernel)
  have hupdate : lit "update" <:+: updateText c uptime :=
    (show lit "update" <:+: lit "update: " by decide +kernel).trans
      (List.prefix_append _ _).isInfix
  unfold branch
  rw [hvolume, htempo, hmode, includes_of_infix hupdate]
  rfl

/-! ## The words -/

theorem split_words {ws : List Bytes} (hws : ∀ s ∈ ws, 32 ∉ s) (hne : ws ≠ []) :
    split ([32].intercalate ws) = ws := List.splitOn_intercalate 32 hws hne

theorem word_level {first : String} (hfirst : first = "new" ∨ first = "current") (x : Level)
    (v : Int) : word (levelText first x v) 2 = decimal v ++ [10] := by
  have hwords : levelText first x v =
      [32].intercalate [lit first, lit (levelName x ++ ":"), decimal v ++ [10]] := by
    simp [levelText, List.intercalate, lit]
  have hdecimal : (32 : UInt8) ∉ decimal v := not_mem_decimal (by decide) (by decide)
  rw [word, hwords, split_words ?_ (List.cons_ne_nil _ _)]
  · rfl
  · rw [List.forall_mem_cons, List.forall_mem_cons, List.forall_mem_singleton]
    refine ⟨?_, ?_, by simp [hdecimal]⟩
    · rcases hfirst with rfl | rfl <;> decide +kernel
    · cases x <;> decide +kernel

theorem split_update {uptime : Bytes} (hu : IsFixed uptime) (c : Controls) :
    split (updateText c uptime) = [lit "update:", decimal (AudioMixer_getTempo c),
      decimal (AudioMixer_getVolume c), decimal c.currentMode, uptime ++ [10]] := by
  have hwords : updateText c uptime = [32].intercalate [lit "update:",
      decimal (AudioMixer_getTempo c), decimal (AudioMixer_getVolume c), decimal c.currentMode,
      uptime ++ [10]] := by
    simp [updateText, List.intercalate, lit]
  have hdecimal : ∀ n, (32 : UInt8) ∉ decimal n := fun n => not_mem_decimal (by decide) (by decide)
  have huptime : (32 : UInt8) ∉ uptime := fun hb => by
    rcases hu 32 hb with h | h <;> cases h
  rw [hwords, split_words ?_ (List.cons_ne_nil _ _)]
  simp [hdecimal, huptime, lit]

/-! ## What is shown -/

theorem inputValue_decimal (v : Int) : inputValue (decimal v) = decimal v := by
  refine List.filter_eq_self.mpr fun b hb => ?_
  have h10 : b ≠ 10 := by
    rintro rfl
    exact not_mem_decimal (by decide) (by decide) hb
  have h13 : b ≠ 13 := by
    rintro rfl
    exact not_mem_decimal (by decide) (by decide) hb
  exact decide_eq_true ⟨h10, h13⟩

/-- The line break at the end of a reply is not shown. -/
theorem inputValue_line (v : Int) : inputValue (decimal v ++ [10]) = decimal v := by
  rw [inputValue, List.filter_append]
  exact (congrArg (· ++ _) (inputValue_decimal v)).trans (List.append_nil _)

theorem modeName_decimal {mode : Int} (h1 : 1 ≤ mode) (h3 : mode ≤ 3) :
    modeName (decimal mode) = nameOf mode := by
  interval_cases mode <;> decide +kernel

section

variable {uptimeString : Option Bytes → Bytes} {c : Command} {w : UdpListener.World}
  {rx tx : Bytes} {page : Page}

theorem understood_level {first : String} {x : Level}
    (hfirst : first = "new" ∨ first = "current") (hmeant : meant c = levelBranch x)
    (hsent : (answered c w rx tx).sent =
      [levelText first x ((answered c w rx tx).world.controls.get x)]) :
    Understood uptimeString c w rx tx page := by
  have hbranch := branch_level hfirst x ((answered c w rx tx).world.controls.get x)
  refine ⟨_, hsent, by rw [hbranch, hmeant], ?_⟩
  rw [commandReply, hbranch, hmeant]
  cases x with
  | volume =>
    simp only [levelBranch, word_level hfirst, inputValue_line]
    rfl
  | tempo =>
    simp only [levelBranch, word_level hfirst, inputValue_line]
    rfl

/-- `val` leaves the text of the `span` alone. -/
theorem understood_mode {m : beatMode} {text : String} (hmeant : meant c = .mode)
    (hserve : (UdpListener.Command.control c).serve w tx = UdpListener.modeRequest m text w tx)
    (hnonzero : ∀ b ∈ lit text, b ≠ 0) (hbranch : branch (lit text) = some .mode) :
    Understood uptimeString c w rx tx page ↔ page.modeid.text = nameOf m.value := by
  have hsent : (answered c w rx tx).sent = [lit text] := by
    rw [answered_eq, hserve, UdpListener.modeRequest, UdpListener.reply, cstring_strcpy,
      cstring_of_nonzero hnonzero]
  have hcontrols : (answered c w rx tx).world.controls = AudioMixer_setMode m w.controls := by
    rw [answered_eq, hserve]
    rfl
  have hshown : (commandReply uptimeString (lit text) page).shown = page.shown := by
    rw [commandReply, hbranch]
    rfl
  constructor
  · rintro ⟨text', htext, -, hexpected⟩
    obtain rfl : lit text = text' := List.singleton_inj.mp (hsent.symm.trans htext)
    rw [hshown, hcontrols, hmeant] at hexpected
    exact congrArg Shown.mode hexpected
  · intro hname
    refine ⟨lit text, hsent, by rw [hbranch, hmeant], ?_⟩
    rw [hshown, hcontrols, hmeant, expected, stateShown]
    exact congrArg (fun mode => { page.shown with mode }) hname

theorem understood_updates {uptime : Bytes} (hw : w.uptime = some uptime) (hu : IsFixed uptime)
    (h1 : 1 ≤ w.controls.currentMode) (h3 : w.controls.currentMode ≤ 3) :
    Understood uptimeString .getUpdates w rx tx page := by
  have hcontrols : (answered .getUpdates w rx tx).world.controls = w.controls := by
    rw [answered_eq, UdpListener.serve_controls]
    rfl
  refine ⟨updateText w.controls uptime, ?_, branch_update hu _, ?_⟩
  · rw [answered_eq]
    exact reply_updates hw hu tx
  · rw [commandReply, branch_update hu, hcontrols]
    simp only [word, split_update hu]
    change Shown.mk (modeName (decimal _)) (inputValue (decimal _)) (inputValue (decimal _)) = _
    rw [modeName_decimal h1 h3, inputValue_decimal, inputValue_decimal]
    rfl

/-- **The page shows the program's state after every reply but that to a mode request**, and after
that only if it has shown the mode before. -/
theorem understood_iff {uptime : Bytes} (hw : w.uptime = some uptime) (hu : IsFixed uptime)
    (h1 : 1 ≤ w.controls.currentMode) (h3 : w.controls.currentMode ≤ 3) :
    Understood uptimeString c w rx tx page ↔
      ∀ m, c.request = .setMode m → page.modeid.text = nameOf m.value := by
  have hmode : ∀ m, (∀ m', Request.setMode m = .setMode m' → page.modeid.text = nameOf m'.value) ↔
      page.modeid.text = nameOf m.value := by simp
  have hlevel : Understood uptimeString c w rx tx page → (∀ m, c.request ≠ .setMode m) →
      (Understood uptimeString c w rx tx page ↔
        ∀ m, c.request = .setMode m → page.modeid.text = nameOf m.value) :=
    fun h hno => iff_of_true h fun m hm => absurd hm (hno m)
  cases c with
  | modeNone | modeRock | modeCustom =>
    exact (understood_mode rfl rfl (by decide +kernel) (by decide +kernel)).trans (hmode _).symm
  | volumeUp | volumeDown =>
    refine hlevel (understood_level (.inl rfl) (x := .volume) rfl ?_) nofun
    rw [answered_eq]
    exact reply_level "new" .volume (by decide +kernel) _ _ _
  | tempoUp | tempoDown =>
    refine hlevel (understood_level (.inl rfl) (x := .tempo) rfl ?_) nofun
    rw [answered_eq]
    exact reply_level "new" .tempo (by decide +kernel) _ _ _
  | getvol =>
    refine hlevel (understood_level (.inr rfl) (x := .volume) rfl ?_) nofun
    rw [answered_eq]
    exact reply_level "current" .volume (by decide +kernel) _ _ _
  | gettempo =>
    refine hlevel (understood_level (.inr rfl) (x := .tempo) rfl ?_) nofun
    rw [answered_eq]
    exact reply_level "current" .tempo (by decide +kernel) _ _ _
  | getUpdates => exact hlevel (understood_updates hw hu h1 h3) nofun

end

/-- The page as it is loaded. -/
def loaded : Page where
  modeid := ⟨[], lit "???"⟩
  volumeid := lit "???"
  tempoid := lit "???"
  status := lit "None yet..."
  errorText := lit "No error yet... did you hide this div correctly via Javascript? :)"
  errorBox := false

/-- The program at its start, ten seconds after the board's. -/
def early : UdpListener.World := { UdpListener.startWorld with uptime := some (lit "10.00") }

theorem understood_volumeUp :
    Understood (fun _ => []) .volumeUp early [] [] loaded :=
  (understood_iff rfl (by decide +kernel) (by decide) (by decide)).mpr nofun

/-- The rock beat is chosen, and the page goes on to show no mode. -/
theorem mode_not_shown : ¬ ∀ (c : Command) (w : UdpListener.World) (uptime rx tx : Bytes)
    (page : Page), w.uptime = some uptime → IsFixed uptime → 1 ≤ w.controls.currentMode →
    w.controls.currentMode ≤ 3 → Understood (fun _ => []) c w rx tx page := by
  intro hall
  have hrock := hall .modeRock early (lit "10.00") [] [] loaded rfl (by decide +kernel) (by decide)
    (by decide)
  have hname := (understood_mode (m := .ROCK) rfl rfl (by decide +kernel)
    (by decide +kernel)).mp hrock
  exact absurd hname (by decide +kernel)

end WebPage
