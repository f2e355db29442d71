import KinQuery.Settings.Basic

/-! What the settings ask for before the first query: the genealogy and the dictionary are
opened, the script of helpers is run, and `ego` is defined. -/
namespace KinQuery.Settings

/-- A session with the genealogy and the dictionary that the settings name. -/
def openSession (settings : Settings) (folder : Folder) (today : Date) :
    Except Failure Session := do
  let genealogy ← match settings.genealogy with
    | some path => folder.openGenealogy path
    | none => .ok {}
  let dictionary ← folder.openDictionary settings.kinshipDictionary
  let session : Session := { genealogy, dictionary, today }
  .ok (session.setCaching settings.caching)

/-- The query that defines `ego` as the person with a full name. A quote would end the name,
so quotes are left out. -/
def egoQuery (fullName : String) : String :=
  "(define ego (person '" ++ .ofList (fullName.toList.filter (· ≠ Text.quote)) ++ "'))"

/-- Runs the script of helpers if there is one at its path. -/
def runHelpers (settings : Settings) (folder : Folder) (depth : Nat) (s : Session) :
    Except Halt Unit × Session :=
  match settings.helperScript with
  | some path =>
    if folder.has path then
      let (result, s) := folder.execFile depth path s
      (result.map fun _ => (), s)
    else (.ok (), s)
  | none => (.ok (), s)

def defineEgo (settings : Settings) (depth : Nat) (s : Session) :
    Except Halt Unit × Session :=
  match settings.ego with
  | some fullName =>
    let (result, s) := s.exec depth (egoQuery fullName)
    (result.map fun _ => (), s)
  | none => (.ok (), s)

/-- Runs what comes before the first query, up to the first failure. -/
def prepare (settings : Settings) (folder : Folder) (depth : Nat) (s : Session) :
    Except Halt Unit × Session :=
  match settings.runHelpers folder depth s with
  | (.ok (), s) => settings.defineEgo depth s
  | (.error halt, s) => (.error halt, s)

end KinQuery.Settings
