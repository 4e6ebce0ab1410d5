import LoxTokens.Files
import LoxTokens.Session.Agenda
import LoxTokens.Session.Screen
import LoxTokens.Session.Transcript

/-!
A session: every entry of its agenda is answered in turn.

What an entry prints depends on it alone and on what can be read, never on the entries before it.
So the transcript of a session is its opening, the answers one after the other, each followed by the
prompt for the next entry, and the farewell that its ending calls for.
-/

namespace LoxTokens

/-- What a session looks like. -/
structure SessionSettings where
  colored : Bool
  /-- Whether a prompt is printed before each entry. -/
  prompted : Bool
  deriving DecidableEq, Repr

/-- What is printed for a file, or for one that could not be read. -/
def loaded (colored : Bool) (path : Text) : ReadResult → Transcript
  | .ok source => .ofSource colored source
  | .error fault => { err := Screen.unreadableFile colored path fault }

/-- What a request prints. -/
def Request.answer (colored : Bool) (read : Text → ReadResult) : Request → Transcript
  | .nothing => .empty
  | .perform .help _ => { out := Screen.help colored }
  | .perform .exit _ => .empty
  | .perform .clear _ => { out := Screen.clear }
  | .perform .version _ => { out := Screen.versionNote colored }
  | .perform .load none => { err := Screen.pathRequired colored }
  | .perform .load (some path) => loaded colored path (read path)
  | .list source => .ofSource colored source

/-- What is printed at the end of a session. -/
def Ending.farewell (colored : Bool) : Ending → Transcript
  | .exited => { out := Screen.goodbye colored }
  | .unreadableLine => { out := Screen.goodbye colored, err := Screen.unreadableLine colored }
  | .endOfInput => { out := Screen.endOfInput colored ++ Screen.goodbye colored }

namespace Session

/-- What is printed before an entry is read. -/
def prompt (settings : SessionSettings) : Transcript :=
  if settings.prompted then { out := Screen.prompt settings.colored } else .empty

/-- What is printed before the first entry is read. -/
def opening (settings : SessionSettings) : Transcript :=
  { out := Screen.banner settings.colored } ++ prompt settings

/-- What an entry prints, and the prompt for the next one. -/
def answer (settings : SessionSettings) (read : Text → ReadResult) (entry : Text) : Transcript :=
  (Request.ofEntry entry).answer settings.colored read ++ prompt settings

/-- What a session prints for an agenda. -/
def transcript (settings : SessionSettings) (read : Text → ReadResult) (agenda : Agenda) :
    Transcript :=
  opening settings ++ .concat (agenda.entries.map (answer settings read)) ++
    agenda.ending.farewell settings.colored

/-- A whole session over an input. -/
def run (settings : SessionSettings) (read : Text → ReadResult) (input : List UInt8) : Transcript :=
  transcript settings read (.of [] (Input.lines input))

end Session

end LoxTokens
