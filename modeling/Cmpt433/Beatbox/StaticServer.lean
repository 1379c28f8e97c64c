import Cmpt433.Lib.FileTree

/-!
# The static web server (`NodeServer/server.js`)

The server puts the URL of a request behind `./public` and opens what the operating system finds
there.  A path is followed name by name from the directory the server was started in, `cwd`.

* `absPath`, `serveStatic`, `respond` — the functions of the file.
* `handleRequest` — what `socketio.listen` puts before them: some URLs are socket.io's own.
* `Confined` — the URLs whose path leads to no file, or never leaves the way to `public`.
* `response_local_iff` — for exactly these the response depends on `public` alone.
* `urlOf_leaves`, `every_file_served` — some URL leaves `public`, and fetches any given file of the
  machine.

`fs.exists` and `fs.readFile` are two calls, and the files may change in between.  `mime.lookup` and
the answers of socket.io are parameters.
-/

set_option autoImplicit false

namespace StaticServer

open FileTree

/-- A piece of a path that names something. -/
def Valid (s : List Char) : Prop := s ≠ [] ∧ s ≠ ['.'] ∧ s ≠ ['.', '.'] ∧ '/' ∉ s

instance (s : List Char) : Decidable (Valid s) :=
  inferInstanceAs (Decidable (s ≠ [] ∧ s ≠ ['.'] ∧ s ≠ ['.', '.'] ∧ '/' ∉ s))

structure Name where
  val : List Char
  valid : Valid val
  deriving DecidableEq

/-- An empty piece is like `.`. -/
def component (s : List Char) : Component Name :=
  if s = ['.', '.'] then .up
  else if h : Valid s then .name ⟨s, h⟩ else .here

def path (s : List Char) : List (Component Name) := (s.splitOn '/').map component

/-! ## The server -/

structure Response (D : Type) where
  status : ℕ
  contentType : String
  /-- a text of the server, or the contents of a file -/
  body : String ⊕ D

/-- The path that the callback of `createServer` makes of `request.url`. -/
def absPath (url : List Char) : List Char :=
  let filePath :=
    if url = ['/'] then "public/index.html".toList
    else "public".toList ++ url
  "./".toList ++ filePath

/-- `path.basename` -/
def basename (filePath : List Char) : List Char :=
  ((filePath.splitOn '/').filter (· ≠ [])).getLastD []

def send404 {D : Type} : Response D :=
  ⟨404, "text/plain", .inl "Error 404: resource not found."⟩

section

variable {D : Type} (mime_lookup : List Char → String)

def sendFile (filePath : List Char) (fileContents : D) : Response D :=
  ⟨200, mime_lookup (basename filePath), .inr fileContents⟩

/-- `before` are the files when `fs.exists` looks, `later` those that `fs.readFile` reads. -/
def serveStatic (before later : Tree Name D) (cwd : List Name) (absPath : List Char) :
    Response D :=
  if (lookup before cwd (path absPath)).isSome then
    match read later cwd (path absPath) with
    | some data => sendFile mime_lookup absPath data
    | none => send404
  else send404

/-- The callback of `createServer`. -/
def respond (before later : Tree Name D) (cwd : List Name) (url : List Char) : Response D :=
  serveStatic mime_lookup before later cwd (absPath url)

/-- The setting of socket.io (`node_modules/socket.io/lib/manager.js`). -/
def resource : List Char := "/socket.io".toList

/-- The URLs that socket.io answers itself. -/
def checkRequest (url : List Char) : Bool := url.take resource.length = resource

/-- The listener that takes the place of the callback; `socketio` answers from files of its own. -/
def handleRequest (socketio : Tree Name D → Tree Name D → List Char → Response D)
    (before later : Tree Name D) (cwd : List Name) (url : List Char) : Response D :=
  if checkRequest url then socketio before later url
  else respond mime_lookup before later cwd url

end

/-- The directory `public` of the server. -/
def publicDir (cwd : List Name) : List Name := ⟨"public".toList, by decide⟩ :: cwd

/-- The path leads to no file whatever there is, or stays on the way to `public` and below. -/
def Confined (cwd : List Name) (url : List Char) : Prop :=
  NoFile (publicDir cwd) cwd (path (absPath url)) ∨ Stays (publicDir cwd) cwd (path (absPath url))

instance (cwd : List Name) (url : List Char) : Decidable (Confined cwd url) :=
  inferInstanceAs (Decidable (_ ∨ _))

example : Confined [] "/javascripts/../index.html".toList := by decide

example : ¬Confined [] "/../server.js".toList := by decide

/-! ## What a response depends on -/

section

variable {D : Type} {mime_lookup : List Char → String} {before later : Tree Name D}
  {cwd : List Name} {url : List Char}

theorem respond_same (t : Tree Name D) :
    respond mime_lookup t t cwd url =
      match read t cwd (path (absPath url)) with
      | some data => sendFile mime_lookup (absPath url) data
      | none => send404 := by
  unfold respond serveStatic
  cases hread : read t cwd (path (absPath url)) with
  | none => exact ite_self _
  | some data =>
    have hsome : (lookup t cwd (path (absPath url))).isSome := by
      obtain ⟨hpassed, hgoal⟩ := read_eq_some_iff.mp hread
      rw [lookup_eq hpassed, hgoal]
      rfl
    exact if_pos hsome

theorem body_same (t : Tree Name D) (data : D) :
    (respond mime_lookup t t cwd url).body = .inr data ↔
      read t cwd (path (absPath url)) = some data := by
  rw [respond_same]
  cases read t cwd (path (absPath url)) with
  | none => exact iff_of_false (fun h => by cases h) (fun h => by cases h)
  | some data' =>
    show Sum.inr data' = Sum.inr data ↔ _
    rw [Sum.inr.injEq, Option.some.injEq]

theorem read_of_respond {t t' : Tree Name D}
    (h : respond mime_lookup t t cwd url = respond mime_lookup t' t' cwd url) :
    read t cwd (path (absPath url)) = read t' cwd (path (absPath url)) := by
  ext data
  have hbody := fun u => @body_same D mime_lookup cwd url u data
  rw [← hbody t, ← hbody t', h]

end

theorem handleRequest_static {D : Type} {mime_lookup : List Char → String}
    {socketio : Tree Name D → Tree Name D → List Char → Response D} {url : List Char}
    (h : checkRequest url = false) (before later : Tree Name D) (cwd : List Name) :
    handleRequest mime_lookup socketio before later cwd url =
      respond mime_lookup before later cwd url := by
  unfold handleRequest
  rw [h]
  exact if_neg Bool.false_ne_true

/-- **The response depends on the directory `public` alone exactly for the confined URLs**, of those
that socket.io leaves to the server. -/
theorem response_local_iff (mime_lookup : List Char → String)
    (socketio : Tree Name (List UInt8) → Tree Name (List UInt8) → List Char →
      Response (List UInt8))
    (cwd : List Name) {url : List Char} (hurl : checkRequest url = false) :
    (∀ before later before' later' : Tree Name (List UInt8),
      before.entry (publicDir cwd) = some .directory →
      later.entry (publicDir cwd) = some .directory →
      SameBelow (publicDir cwd) before before' → SameBelow (publicDir cwd) later later' →
      handleRequest mime_lookup socketio before later cwd url =
        handleRequest mime_lookup socketio before' later' cwd url) ↔
    Confined cwd url := by
  simp only [handleRequest_static hurl]
  constructor
  · intro h
    apply (local_iff (D := List UInt8) (List.suffix_cons _ cwd)).mp
    intro t t' ht hsame
    exact read_of_respond (h t t t' t' ht ht hsame hsame)
  · rintro hconfined before later before' later' hbefore hlater hsame hsame'
    have hread := (local_iff (D := List UInt8) (List.suffix_cons _ cwd)).mpr hconfined
    unfold respond serveStatic
    rw [← hread later later' hlater hsame']
    rcases hconfined with hnone | hstays
    · rw [read_noFile hnone hlater, ite_self, ite_self]
    · rw [lookup_same hsame hbefore hstays]

theorem response_local_index :
    (∀ before later before' later' : Tree Name (List UInt8),
      before.entry (publicDir []) = some .directory →
      later.entry (publicDir []) = some .directory →
      SameBelow (publicDir []) before before' → SameBelow (publicDir []) later later' →
      handleRequest (fun _ => "text/html") (fun _ _ _ => send404) before later []
          "/index.html".toList =
        handleRequest (fun _ => "text/html") (fun _ _ _ => send404) before' later' []
          "/index.html".toList) ↔
    Confined [] "/index.html".toList :=
  response_local_iff (fun _ => "text/html") (fun _ _ _ => send404) [] (by decide)

/-! ## Every file of the machine -/

/-- The URL that climbs to the root and goes down to `p`. -/
def urlOf (cwd p : List Name) : List Char :=
  '/' :: ['/'].intercalate
    (List.replicate (cwd.length + 1) ['.', '.'] ++ p.reverse.map Name.val)

theorem component_name (n : Name) : component n.val = .name n := by
  obtain ⟨s, h⟩ := n
  unfold component
  rw [if_neg h.2.2.1, dif_pos h]

theorem path_urlOf (cwd p : List Name) :
    path (absPath (urlOf cwd p)) =
      .here :: .name ⟨"public".toList, by decide⟩ ::
        (List.replicate (cwd.length + 1) .up ++ p.reverse.map .name) := by
  have hurl : urlOf cwd p ≠ ['/'] := by
    unfold urlOf
    rw [List.replicate_succ, List.cons_append]
    simp
  have habs : absPath (urlOf cwd p) = ['/'].intercalate (['.'] :: "public".toList ::
      (List.replicate (cwd.length + 1) ['.', '.'] ++ p.reverse.map Name.val)) := by
    unfold absPath
    rw [if_neg hurl, List.intercalate_cons_cons, List.intercalate_cons_of_ne_nil
      (by rw [List.replicate_succ]; exact List.cons_ne_nil _ _)]
    rfl
  have hpieces : ∀ l ∈ ['.'] :: "public".toList ::
      (List.replicate (cwd.length + 1) ['.', '.'] ++ p.reverse.map Name.val), '/' ∉ l := by
    intro l hl
    rcases List.mem_cons.mp hl with rfl | hl
    · decide
    rcases List.mem_cons.mp hl with rfl | hl
    · decide
    rcases List.mem_append.mp hl with hl | hl
    · rw [List.eq_of_mem_replicate hl]
      decide
    · obtain ⟨n, -, rfl⟩ := List.mem_map.mp hl
      exact n.valid.2.2.2
  have hnames : (p.reverse.map Name.val).map component = p.reverse.map .name := by
    rw [List.map_map]
    exact List.map_congr_left fun n _ => component_name n
  unfold path
  rw [habs, List.splitOn_intercalate '/' hpieces (List.cons_ne_nil _ _), List.map_cons,
    List.map_cons, List.map_append, List.map_replicate, hnames]
  rfl

/-- The URL leads there, by places above `public` and above the place itself. -/
theorem goal_urlOf (cwd p : List Name) :
    goal cwd (path (absPath (urlOf cwd p))) = p ∧
      ∀ x ∈ passed cwd (path (absPath (urlOf cwd p))), x <:+ publicDir cwd ∨ x <:+ p.tail := by
  obtain ⟨hup, hclimbed⟩ := climb (publicDir cwd) (cwd.length + 1)
  have hroot : (publicDir cwd).drop (cwd.length + 1) = [] :=
    List.drop_eq_nil_of_le (le_refl (publicDir cwd).length)
  obtain ⟨hdown, hdescended⟩ := descend ([] : List Name) p
  have hcwd : cwd <:+ publicDir cwd := List.suffix_cons _ cwd
  rw [path_urlOf]
  simp only [passed, goal, go, passed_append, goal_append]
  change goal (goal (publicDir cwd) _) _ = _ ∧ ∀ x ∈ cwd :: cwd ::
      (passed (publicDir cwd) _ ++ passed (goal (publicDir cwd) _) _), _
  rw [hup, hroot, hdown, List.append_nil]
  refine ⟨rfl, ?_⟩
  rw [List.forall_mem_cons, List.forall_mem_cons, List.forall_mem_append]
  refine ⟨.inl hcwd, .inl hcwd, fun x hx => .inl (hclimbed x hx), fun x hx => .inr ?_⟩
  have hsuffix := hdescended x hx
  rw [List.append_nil] at hsuffix
  exact hsuffix

/-- It is none of socket.io's. -/
theorem checkRequest_urlOf (cwd p : List Name) : checkRequest (urlOf cwd p) = false := by
  have hstart : ∃ rest, urlOf cwd p = '/' :: '.' :: rest := by
    unfold urlOf
    rw [List.replicate_succ, List.cons_append]
    cases List.replicate cwd.length ['.', '.'] ++ p.reverse.map Name.val with
    | nil => exact ⟨_, rfl⟩
    | cons l ls => exact ⟨_, rfl⟩
  obtain ⟨rest, hrest⟩ := hstart
  have hresource : resource = ['/', 's', 'o', 'c', 'k', 'e', 't', '.', 'i', 'o'] := rfl
  apply decide_eq_false
  rw [hrest, hresource]
  simp

/-- **With enough `..` a URL leaves the way to `public`**, for any place that is not on it. -/
theorem urlOf_leaves (cwd p : List Name) (hp : ¬Along (publicDir cwd) p) :
    checkRequest (urlOf cwd p) = false ∧ ¬Confined cwd (urlOf cwd p) := by
  obtain ⟨hgoal, hpassed⟩ := goal_urlOf cwd p
  refine ⟨checkRequest_urlOf cwd p, ?_⟩
  have hpublic : ¬p <:+ publicDir cwd := fun h => hp (.inl h)
  rintro (⟨x, hx, hsuffix⟩ | hstays)
  · rw [hgoal] at hsuffix
    rcases List.mem_cons.mp hx with rfl | hx
    · exact hpublic hsuffix
    · rcases hpassed x hx with hx | hx
      · exact hpublic (hsuffix.trans hx)
      · -- no place is above itself
        have hlength := (hsuffix.trans hx).length_le
        have hne : p ≠ [] := by
          rintro rfl
          exact hpublic List.nil_suffix
        have hpos := List.length_pos_iff.mpr hne
        rw [List.length_tail] at hlength
        omega
  · have halong := hstays _ List.mem_cons_self
    rw [hgoal] at halong
    exact hp halong

/-- The characters from `!` to `~`, which an HTTP request can carry in its URL as they are. -/
def Sendable (s : List Char) : Prop := ∀ c ∈ s, 33 ≤ c.toNat ∧ c.toNat ≤ 126

instance (s : List Char) : Decidable (Sendable s) :=
  inferInstanceAs (Decidable (∀ c ∈ s, 33 ≤ c.toNat ∧ c.toNat ≤ 126))

theorem sendable_append {xs ys : List Char} :
    Sendable (xs ++ ys) ↔ Sendable xs ∧ Sendable ys := List.forall_mem_append

theorem sendable_slash : Sendable ['/'] := by simp [Sendable]

theorem sendable_up : Sendable ['.', '.'] := by simp [Sendable]

theorem sendable_intercalate {ls : List (List Char)} (h : ∀ l ∈ ls, Sendable l) :
    Sendable (['/'].intercalate ls) := by
  cases ls with
  | nil =>
    intro c hc
    cases hc
  | cons l ls =>
    induction ls generalizing l with
    | nil => simpa using h
    | cons l' ls ih =>
      obtain ⟨hl, hrest⟩ := List.forall_mem_cons.mp h
      rw [List.intercalate_cons_cons, sendable_append, sendable_append]
      exact ⟨⟨hl, sendable_slash⟩, ih l' hrest⟩

theorem sendable_urlOf (cwd : List Name) {p : List Name} (h : ∀ n ∈ p, Sendable n.val) :
    Sendable (urlOf cwd p) := by
  show Sendable (['/'] ++ _)
  rw [sendable_append]
  refine ⟨sendable_slash, sendable_intercalate fun l hl => ?_⟩
  rcases List.mem_append.mp hl with hl | hl
  · rw [List.eq_of_mem_replicate hl]
    exact sendable_up
  · obtain ⟨n, hn, rfl⟩ := List.mem_map.mp hl
    exact h n (List.mem_reverse.mp hn)

/-- **Every file of the machine is served**, wherever it is: for every place whose names a URL can
carry there is a URL that gets as the contents of a file exactly what is there. -/
theorem every_file_served {D : Type} (mime_lookup : List Char → String) (cwd : List Name)
    (t : { t : Tree Name D // t.entry (publicDir cwd) = some .directory })
    (p : { p : List Name // ∀ n ∈ p, Sendable n.val }) :
    ∃ url, Sendable url ∧ ∀ data, (respond mime_lookup t.val t.val cwd url).body = .inr data ↔
      t.val.entry p.val = some (.file data) := by
  obtain ⟨p, hp⟩ := p
  refine ⟨urlOf cwd p, sendable_urlOf cwd hp, fun data => ?_⟩
  have hpublic := t.property
  obtain ⟨hgoal, hpassed⟩ := goal_urlOf cwd p
  rw [body_same, read_eq_some_iff, hgoal]
  refine ⟨And.right, fun hfile => ⟨fun x hx => ?_, hfile⟩⟩
  rcases hpassed x hx with hsuffix | hsuffix
  · exact t.val.directory_suffix hsuffix hpublic
  · cases p with
    | nil =>
      rw [t.val.root] at hfile
      cases hfile
    | cons n p =>
      have hdir : t.val.entry p = some .directory := by
        apply t.val.above n p
        rw [hfile]
        rfl
      exact t.val.directory_suffix hsuffix hdir

end StaticServer
