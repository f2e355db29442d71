import KinQuery.Service.Basic
import KinQuery.Settings.Start

/-! The prompt: a line is a query, or a command that begins with a dollar sign. Every line is
answered before the next one is asked for. -/
namespace KinQuery.Console


/-- What a line asks for. -/
inductive Command where
  | nothing
  | quit
  | time
  | caching (enabled : Bool)
  | expunge
  | size
  | definitions
  | query (text : String)
  deriving DecidableEq

/-- The command of a line; blanks around it do not matter. -/
def Command.ofLine (line : String) : Command :=
  match Text.trimmed line with
  | "" => .nothing
  | "$quit" => .quit
  | "$time" => .time
  | "$nocache" => .caching false
  | "$cache" => .caching true
  | "$expunge" => .expunge
  | "$size" => .size
  | "$defs" => .definitions
  | text => .query text

/-- A piece of what is printed. -/
inductive Output where
  | prompt
  | line (text : String)
  /-- How long the last query took, which only a clock can tell. -/
  | elapsed
  deriving DecidableEq

/-- The line that answers a query. -/
def answerLine : Except Halt Value → String
  | .ok v => v.kind.name ++ " : " ++ v.term
  | .error halt => halt.message

def definitionLines (s : Session) : List Output :=
  s.definitionTerms.map fun (name, term) => .line (name ++ " = " ++ term)

/-- Obeys a command. -/
def obey (depth : Nat) (command : Command) (s : Service) :
    Except Failure (List Output) × Service :=
  match command with
  | .nothing => (.ok [], s)
  | .quit => (.ok [], s)
  | .time => (.ok [if s.isTimed then .elapsed else .line "nothing evaluated yet"], s)
  | .caching enabled => s.withSession fun session =>
    ([.line (if enabled then "caching on" else "caching off")], session.setCaching enabled)
  | .expunge => s.withSession fun session => ([.line "cache expunged"], session.expunge)
  | .size => s.withSession fun session =>
    ([.line (toString session.cache.size ++ " cached terms")], session)
  | .definitions => s.withSession fun session => (definitionLines session, session)
  | .query text =>
    let (reply, s) := s.run depth text
    (.ok [.line (answerLine reply.result)], s)

/-- What was printed, how it ended, and what is left. -/
structure Conversation where
  output : List Output
  failure : Option Failure
  service : Service

/-- Answers lines up to the end, a `$quit`, or a failure to get at the session. -/
def converse (depth : Nat) : List String → Service → Conversation
  | [], s => ⟨[.prompt], none, s⟩
  | line :: lines, s =>
    let command := Command.ofLine line
    if command = .quit then ⟨[.prompt], none, s⟩
    else match obey depth command s with
      | (.error failure, s) => ⟨[.prompt], some failure, s⟩
      | (.ok output, s) =>
        let rest := converse depth lines s
        { rest with output := .prompt :: output ++ rest.output }

/-- The lines of a text; nothing after the last line feed is no line. -/
def lines (text : String) : List String :=
  let pieces := Text.splitOn '\n' text.toList
  (if pieces.getLast? = some [] then pieces.dropLast else pieces).map .ofList

/-! ### From the settings to the last line -/

/-- The name of the settings file. -/
def settingsName : String := "kisp"

/-- Opens the session that the settings ask for and makes it ready for queries. A failure
leaves no session, but what was saved before it stays in the folder. -/
def start (depth : Nat) (folder : Folder) (settings : Settings) (today : Date) :
    Except Halt Service × Folder :=
  match settings.openSession folder today with
  | .error failure => (.error (.failed failure), folder)
  | .ok s =>
    let (result, s) := settings.prepare folder depth s
    (result.map fun () => { session := s },
      folder.writeBack settings.kinshipDictionary s.dictionary)

/-- The outcome of a run of the program. -/
structure Outcome where
  output : List Output
  failure : Option Halt
  folder : Folder

/-- Runs the program in a folder on all of its input. Whatever prevents the first prompt is a
failure without any output. -/
def run (depth : Nat) (folder : Folder) (environment : List (String × String)) (today : Date)
    (input : String) : Outcome :=
  match Settings.load folder settingsName environment with
  | .error failure => ⟨[], some (.failed failure), folder⟩
  | .ok settings =>
    match start depth folder settings today with
    | (.error halt, folder) => ⟨[], some halt, folder⟩
    | (.ok service, folder) =>
      let c := converse depth (lines input) service
      ⟨c.output, c.failure.map .failed,
        folder.writeBack settings.kinshipDictionary c.service.session.dictionary⟩

/-- The text of an output, given how the time of a query is told. -/
def Output.text (clock : String) : Output → String
  | .prompt => settingsName ++ "> "
  | .line text => text ++ "\n"
  | .elapsed => clock ++ "\n"

end KinQuery.Console
