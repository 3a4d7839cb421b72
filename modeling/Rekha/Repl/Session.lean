import Rekha.Repl.Client

/-!
# Sessions

The loop of the REPL: a line that begins with a backslash is a command, any other is a
query. The server is a state that every call may change; the time a query took is an
argument of the line. The loop keeps two switches that nothing reads, so leaving out
their commands changes nothing but what they print themselves (`switches_are_inert`).
-/

namespace Rekha.Repl

open Utf8 NumberText Json Rekha.Server

/-! ## Commands -/

inductive Command where
  | listCollections
  | describeCollection (name : String)
  | createCollection (name : String)
  | useCollection (name : String)
  | dropCollection (name : String)
  | toggleVertical
  | setFormat (fmt : String)
  | togglePager
  | toggleTiming
  | exportToFile (file : String)
  | executeFile (file : String)
  | clear
  | help
  | quit
  | unknown (input : String)
deriving DecidableEq

/-- `input.strip_prefix(keyword)`, trimmed. -/
def argument (keyword : String) (input : Text) : Option String :=
  if keyword.toList <+: input then some (String.ofList (trim (input.drop keyword.toList.length)))
  else none

def isOneOf (words : List String) (input : Text) : Bool :=
  decide (input ∈ words.map String.toList)

def parseCommand (input : Text) : Command :=
  let input := trim input
  if isOneOf ["\\d", "\\dt"] input then .listCollections
  else match (argument "\\d " input).or (argument "\\dt " input) with
  | some name => .describeCollection name
  | none =>
  if isOneOf ["\\x"] input then .toggleVertical
  else match argument "\\format " input with
  | some fmt => .setFormat fmt
  | none =>
  if isOneOf ["\\pager"] input then .togglePager
  else if isOneOf ["\\timing"] input then .toggleTiming
  else match argument "\\o " input with
  | some file => .exportToFile file
  | none =>
  match argument "\\i " input with
  | some file => .executeFile file
  | none =>
  match argument "\\create " input with
  | some name => .createCollection name
  | none =>
  match argument "\\use " input with
  | some name => .useCollection name
  | none =>
  match argument "\\drop " input with
  | some name => .dropCollection name
  | none =>
  if isOneOf ["\\clear", "\\cls"] input then .clear
  else if isOneOf ["\\help", "\\h", "?"] input then .help
  else if isOneOf ["\\quit", "\\q", "exit", "quit"] input then .quit
  else .unknown (String.ofList input)

def OutputFormat.name : OutputFormat → String
  | .table => "table"
  | .json => "json"
  | .csv => "csv"
  | .vertical => "vertical"

/-- The formats that `\format` knows. -/
def OutputFormat.ofName (fmt : String) : Option OutputFormat :=
  [table, json, csv, vertical].find? fun f => f.name = fmt

/-! ## Handlers -/

/-- What is printed, to the screen or as an error. The help is one fixed text. -/
inductive Output where
  | out (s : Text)
  | err (s : Text)
  | help

/-- `println!`. -/
def say (s : Text) : Output := .out (s ++ ['\n'])

/-- `eprintln!`. -/
def complain (s : Text) : Output := .err (s ++ ['\n'])

structure ReplState where
  collection : Option String
  format : OutputFormat
  vertical : Bool
  timing : Bool
  pager : Bool

def ReplState.new (initialCollection : Option String) : ReplState where
  collection := initialCollection
  format := .table
  vertical := false
  timing := true
  pager := true

/-- What the REPL runs in: the parser, the printers, the floats of `serde_json`, the text
of a status, and the server. -/
structure Setting (σ : Type) where
  primitives : Primitives
  printers : Printers
  floats : FloatText
  statusText : ℕ → String
  server : σ → ApiCall → HttpReply × σ

/-- What a handler prints before it returns or panics. -/
structure Effect (σ α : Type) where
  outputs : List Output
  result : Checked String α
  server : σ

variable {σ : Type} (S : Setting σ)

/-- `&id[..8.min(id.len())]`. -/
def shortId (id : String) : Checked String Text :=
  cut id.toList 0 (min 8 (size id.toList))

def listRow (name dimension id : Text) : Output :=
  say (pad 30 name ++ (' ' :: (pad 10 dimension ++ (' ' :: pad 10 id))))

/-- The loop that prints the collections. -/
def listRows : List Collection → List Output × Checked String Unit
  | [] => ([], .ok ())
  | c :: collections =>
      match shortId c.id with
      | .ok short =>
          let dimension := (c.dimension.map printNat).getD ['-']
          let rest := listRows collections
          (listRow c.name.toList dimension short :: rest.1, rest.2)
      | .error e => ([], .error e)
      | .panic => ([], .panic)

def handleListCollections (st : σ) : Effect σ Unit :=
  let reply := S.server st .listCollections
  match RekhaClient.listCollections reply.1 with
  | .error e => ⟨[complain ("Error: " ++ e).toList], .ok (), reply.2⟩
  | .ok [] => ⟨[say "No collections found.".toList], .ok (), reply.2⟩
  | .ok collections =>
      let rows := listRows collections
      let front := [listRow "Name".toList "Dimension".toList "ID".toList,
        say (List.replicate 55 '-')]
      match rows.2 with
      | .ok _ => ⟨front ++ (rows.1 ++
          [say ('\n' :: (printNat collections.length ++ " collections".toList))]), .ok (), reply.2⟩
      | other => ⟨front ++ rows.1, other, reply.2⟩

/-- The count is asked for, and left out where it is not read. -/
def handleDescribe (st : σ) (name : String) : Effect σ Unit :=
  let reply := S.server st .listCollections
  match RekhaClient.listCollections reply.1 with
  | .error e => ⟨[complain ("Error: " ++ e).toList], .ok (), reply.2⟩
  | .ok collections =>
      match collections.find? fun c => c.name = name with
      | none => ⟨[complain ("Collection not found: " ++ name).toList], .ok (), reply.2⟩
      | some c =>
          let counted := S.server reply.2 (.count c.name)
          let records := match RekhaClient.count counted.1 with
            | .ok count => [say ("Records: ".toList ++ printNat count)]
            | .error _ => []
          ⟨say ("Collection: " ++ c.name).toList :: say ("ID: " ++ c.id).toList ::
            say ("Dimension: ".toList ++ (c.dimension.map printNat).getD "Not set".toList) ::
              records, .ok (), counted.2⟩

def handleCreateCollection (st : σ) (name : String) : Effect σ Unit :=
  let reply := S.server st (.createCollection name)
  match RekhaClient.createCollection reply.1 with
  | .error e => ⟨[complain ("Error creating collection: " ++ e).toList], .ok (), reply.2⟩
  | .ok c =>
      match shortId c.id with
      | .ok short => ⟨[say (("Collection '" ++ c.name ++ "' created (id: ").toList ++
          (short ++ [')']))], .ok (), reply.2⟩
      | .error e => ⟨[], .error e, reply.2⟩
      | .panic => ⟨[], .panic, reply.2⟩

def handleDropCollection (st : σ) (name : String) : Effect σ Unit :=
  let reply := S.server st (.deleteCollection name)
  match RekhaClient.deleteCollection S.statusText reply.1 with
  | .ok _ => ⟨[say ("Collection '" ++ name ++ "' dropped.").toList], .ok (), reply.2⟩
  | .error e => ⟨[complain ("Error dropping collection: " ++ e).toList], .ok (), reply.2⟩

/-! ## Queries -/

/-- `*` is the collection in use. -/
def ReplState.target (r : ReplState) (collection : String) : String :=
  if collection = "*" then r.collection.getD "default" else collection

def nearestRequest (embedding : List F32) (limit : ℕ) (whereFilter : Option Json) :
    QueryRequest where
  queryEmbeddings := [embedding]
  nResults := some limit
  whereFilter := whereFilter
  include_ := some ["metadatas", "documents", "distances"]

/-- The request of a query without a vector: it names no ids. -/
def plainRequest (whereFilter : Option Json) : GetRequest where
  ids := none
  whereFilter := whereFilter
  include_ := some ["metadatas", "documents"]

def GetResult.rows (g : GetResult) : QueryResult where
  ids := [g.ids]
  distances := none
  metadatas := g.metadatas.map fun m => [m]
  documents := g.documents.map fun d => [d]

def executeQuery (r : ReplState) (st : σ) : ParsedQuery → Effect σ Text
  | .select collection _ nearestTo whereFilter limit vertical =>
      let fmt := if vertical then .vertical else r.format
      match nearestTo with
      | some embedding =>
          let reply := S.server st (.query (r.target collection)
            (nearestRequest embedding (limit.getD 10) whereFilter))
          match RekhaClient.query S.floats reply.1 with
          | .error e => ⟨[], .error e, reply.2⟩
          | .ok result => ⟨[], formatResult S.printers result fmt, reply.2⟩
      | none =>
          let reply := S.server st (.get (r.target collection) (plainRequest whereFilter))
          match RekhaClient.get S.floats reply.1 with
          | .error e => ⟨[], .error e, reply.2⟩
          | .ok g =>
              if g.ids = [] then ⟨[], .ok emptySet, reply.2⟩
              else ⟨[], formatResult S.printers g.rows fmt, reply.2⟩
  | .count collection =>
      -- the route answers with a number, the client looks for a field in it
      let reply := S.server st (.count (r.target collection))
      match RekhaClient.count reply.1 with
      | .error e => ⟨[], .error e, reply.2⟩
      | .ok count => ⟨[], .ok (formatCount count none), reply.2⟩
  | .createCollection name =>
      let created := handleCreateCollection S st name
      match created.result with
      | .ok _ => ⟨created.outputs, .ok "Collection created.".toList, created.server⟩
      | .error e => ⟨created.outputs, .error e, created.server⟩
      | .panic => ⟨created.outputs, .panic, created.server⟩

/-! ## The loop -/

/-- What the line editor hands out. The time is the one a query on the line took. -/
inductive Signal where
  | success (line elapsed : Text)
  | ctrlC
  | ctrlD
  | other

inductive Flow where
  | next
  | quit
  | panicked
deriving DecidableEq

structure Step (σ : Type) where
  outputs : List Output
  flow : Flow
  repl : ReplState
  server : σ

def flowOf {α : Type} : Checked String α → Flow
  | .panic => .panicked
  | _ => .next

/-- A handler leaves the state of the REPL as it is. -/
def Effect.step {α : Type} (effect : Effect σ α) (r : ReplState) : Step σ :=
  ⟨effect.outputs, flowOf effect.result, r, effect.server⟩

def local_ (output : Output) (r : ReplState) (st : σ) : Step σ := ⟨[output], .next, r, st⟩

def enabled (b : Bool) : Text := (if b then "enabled" else "disabled").toList

def runCommand (r : ReplState) (st : σ) (input : Text) : Command → Step σ
  | .quit => ⟨[say "Bye!".toList], .quit, r, st⟩
  | .listCollections => (handleListCollections S st).step r
  | .describeCollection name => (handleDescribe S st name).step r
  | .toggleVertical => local_ (say ("Vertical display ".toList ++ enabled !r.vertical))
      { r with vertical := !r.vertical } st
  | .setFormat fmt =>
      match OutputFormat.ofName fmt with
      | some f => local_ (say ("Format set to " ++ f.name).toList) { r with format := f } st
      | none => local_ (complain
          ("Unknown format: " ++ fmt ++ ". Use table, json, csv, or vertical.").toList) r st
  | .togglePager => local_ (say ("Pager ".toList ++ enabled !r.pager))
      { r with pager := !r.pager } st
  | .toggleTiming => local_ (say ("Timing ".toList ++ enabled !r.timing))
      { r with timing := !r.timing } st
  | .createCollection name => (handleCreateCollection S st name).step r
  | .useCollection name => local_ (say ("Now using collection: " ++ name).toList)
      { r with collection := some name } st
  | .dropCollection name => (handleDropCollection S st name).step r
  | .help => local_ .help r st
  | .clear => local_ (.out "\x1b[2J\x1b[1;1H".toList) r st
  | .exportToFile _ | .executeFile _ | .unknown _ =>
      local_ (complain ("Unknown command: ".toList ++ input)) r st

def runQuery (r : ReplState) (st : σ) (input elapsed : Text) : Step σ :=
  match parseQuery S.primitives input with
  | .panic => ⟨[], .panicked, r, st⟩
  | .error e => local_ (complain ("Parse error: " ++ e).toList) r st
  | .ok q =>
      let effect := executeQuery S r st q
      match effect.result with
      | .panic => ⟨effect.outputs, .panicked, r, effect.server⟩
      | .error e => ⟨effect.outputs ++ [complain ("Error: " ++ e).toList], .next, r, effect.server⟩
      | .ok output =>
          let timed := if r.timing then output ++ ("\n(".toList ++ (elapsed ++ "s)\n".toList))
            else output
          ⟨effect.outputs ++ [.out timed], .next, r, effect.server⟩

def step (r : ReplState) (st : σ) : Signal → Step σ
  | .ctrlC => local_ (say "^C".toList) r st
  | .ctrlD => ⟨[say "Bye!".toList], .quit, r, st⟩
  | .other => ⟨[], .next, r, st⟩
  | .success line elapsed =>
      let input := trim line
      if input = [] then ⟨[], .next, r, st⟩
      else if input.head? = some '\\' ∨ isOneOf ["exit", "quit"] input = true then
        runCommand S r st input (parseCommand input)
      else runQuery S r st input elapsed

/-- What a session shows for each signal, how it ends, and the server it leaves. -/
def run : List Signal → ReplState → σ → List (Signal × List Output) × Flow × σ
  | [], _, st => ([], .next, st)
  | s :: signals, r, st =>
      let now := step S r st s
      if now.flow = .next then
        let rest := run signals now.repl now.server
        ((s, now.outputs) :: rest.1, rest.2)
      else ([(s, now.outputs)], now.flow, now.server)

/-! ## Switches -/

/-- `\x` or `\pager`. -/
def isSwitch : Signal → Bool
  | .success line _ => isOneOf ["\\x", "\\pager"] (trim line)
  | _ => false

def ReplState.core (r : ReplState) : Option String × OutputFormat × Bool :=
  (r.collection, r.format, r.timing)

/-- Two steps that differ in the switches at most. -/
structure Step.Same (a b : Step σ) : Prop where
  outputs : a.outputs = b.outputs
  flow : a.flow = b.flow
  core : a.repl.core = b.repl.core
  server : a.server = b.server

theorem isOneOf_pair {a b : String} {input : Text} :
    isOneOf [a, b] input = true ↔ input = a.toList ∨ input = b.toList := by
  simp [isOneOf]

theorem parseCommand_toggleVertical {input : Text} (h : parseCommand input = .toggleVertical) :
    trim input = "\\x".toList := by
  unfold parseCommand at h
  dsimp only at h
  split at h
  · cases h
  · split at h
    · cases h
    · split at h
      · rename_i hx
        simpa [isOneOf] using hx
      · repeat' (split at h)
        all_goals cases h

theorem parseCommand_togglePager {input : Text} (h : parseCommand input = .togglePager) :
    trim input = "\\pager".toList := by
  unfold parseCommand at h
  dsimp only at h
  split at h
  · cases h
  · split at h
    · cases h
    · split at h
      · cases h
      · split at h
        · cases h
        · split at h
          · rename_i hx
            simpa [isOneOf] using hx
          · repeat' (split at h)
            all_goals cases h

theorem parseCommand_x : parseCommand "\\x".toList = .toggleVertical := by decide +kernel

theorem parseCommand_pager : parseCommand "\\pager".toList = .togglePager := by decide +kernel

section Same

variable {r r' : ReplState} {st : σ}

theorem collection_eq (h : r.core = r'.core) : r.collection = r'.collection :=
  congrArg Prod.fst h

theorem format_eq (h : r.core = r'.core) : r.format = r'.format :=
  congrArg (fun c => c.2.1) h

theorem timing_eq (h : r.core = r'.core) : r.timing = r'.timing :=
  congrArg (fun c => c.2.2) h

theorem executeQuery_eq (h : r.core = r'.core) (q : ParsedQuery) :
    executeQuery S r st q = executeQuery S r' st q := by
  have htarget : r.target = r'.target := by
    funext c
    rw [ReplState.target, ReplState.target, collection_eq h]
  cases q with
  | createCollection name => rfl
  | count c => rw [executeQuery, executeQuery, htarget]
  | select c fields nearestTo whereFilter limit vertical =>
      unfold executeQuery
      rw [htarget, format_eq h]

theorem runQuery_same (h : r.core = r'.core) (input elapsed : Text) :
    (runQuery S r st input elapsed).Same (runQuery S r' st input elapsed) := by
  unfold runQuery
  cases parseQuery S.primitives input with
  | panic => exact ⟨rfl, rfl, h, rfl⟩
  | error e => exact ⟨rfl, rfl, h, rfl⟩
  | ok q =>
      dsimp only
      rw [executeQuery_eq S h, timing_eq h]
      cases (executeQuery S r' st q).result <;> exact ⟨rfl, rfl, h, rfl⟩

theorem runCommand_same (h : r.core = r'.core) (input : Text) {command : Command}
    (hvertical : command ≠ .toggleVertical) (hpager : command ≠ .togglePager) :
    (runCommand S r st input command).Same (runCommand S r' st input command) := by
  obtain ⟨collection, format, vertical, timing, pager⟩ := r
  obtain ⟨collection', format', vertical', timing', pager'⟩ := r'
  obtain rfl : collection = collection' := collection_eq h
  obtain rfl : format = format' := format_eq h
  obtain rfl : timing = timing' := timing_eq h
  cases command with
  | toggleVertical => exact absurd rfl hvertical
  | togglePager => exact absurd rfl hpager
  | setFormat fmt =>
      simp only [runCommand]
      cases OutputFormat.ofName fmt <;> exact ⟨rfl, rfl, rfl, rfl⟩
  | _ => exact ⟨rfl, rfl, rfl, rfl⟩

theorem step_same (st : σ) (h : r.core = r'.core) {s : Signal} (hs : isSwitch s = false) :
    (step S r st s).Same (step S r' st s) := by
  cases s with
  | ctrlC | ctrlD | other => exact ⟨rfl, rfl, h, rfl⟩
  | success line elapsed =>
      unfold step
      dsimp only
      split
      · exact ⟨rfl, rfl, h, rfl⟩
      · split
        · apply runCommand_same S h
          · intro hcommand
            have hx := parseCommand_toggleVertical hcommand
            rw [trim_trim] at hx
            rw [isSwitch, isOneOf_pair.mpr (.inl hx)] at hs
            cases hs
          · intro hcommand
            have hpager := parseCommand_togglePager hcommand
            rw [trim_trim] at hpager
            rw [isSwitch, isOneOf_pair.mpr (.inr hpager)] at hs
            cases hs
        · exact runQuery_same S h _ _

theorem step_switch (r : ReplState) (st : σ) {s : Signal} (hs : isSwitch s = true) :
    (step S r st s).flow = .next ∧ (step S r st s).repl.core = r.core ∧
      (step S r st s).server = st := by
  cases s with
  | ctrlC | ctrlD | other => cases hs
  | success line elapsed =>
      rcases isOneOf_pair.mp hs with hline | hline
      · rw [step, hline, if_neg (by simp), if_pos (.inl (by simp)), parseCommand_x]
        exact ⟨rfl, rfl, rfl⟩
      · rw [step, hline, if_neg (by simp), if_pos (.inl (by simp)), parseCommand_pager]
        exact ⟨rfl, rfl, rfl⟩

end Same

theorem run_filter : ∀ (signals : List Signal) (r r' : ReplState) (st : σ), r.core = r'.core →
    run S (signals.filter fun s => !isSwitch s) r' st
      = ((run S signals r st).1.filter fun shown => !isSwitch shown.1, (run S signals r st).2)
  | [], _, _, _, _ => rfl
  | s :: signals, r, r', st, h => by
      cases hs : isSwitch s with
      | true =>
          obtain ⟨hflow, hcore, hserver⟩ := step_switch S r st hs
          rw [run, if_pos hflow, List.filter_cons_of_neg (by simp [hs]), hserver,
            run_filter signals (step S r st s).repl r' st (hcore.trans h)]
          simp [hs]
      | false =>
          have hsame := step_same S st h hs
          rw [List.filter_cons_of_pos (by simp [hs]), run, run, ← hsame.flow, ← hsame.outputs,
            ← hsame.server]
          split
          · rw [run_filter signals (step S r st s).repl (step S r' st s).repl _ hsame.core]
            simp [hs]
          · simp [hs]

/-- **The switches are inert.** Leaving their commands out of a session leaves out what
they print themselves, and changes nothing else, whatever the server does. -/
theorem switches_are_inert (S : Setting σ) (signals : List Signal) (r : ReplState) (st : σ) :
    run S (signals.filter fun s => !isSwitch s) r st
      = ((run S signals r st).1.filter fun shown => !isSwitch shown.1, (run S signals r st).2) :=
  run_filter S signals r r st rfl

end Rekha.Repl
