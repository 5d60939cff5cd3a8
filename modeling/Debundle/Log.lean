/-!
# Logged computations

A computation that may fail leaves remarks behind, also when it fails.
-/
namespace Debundle

namespace Log

inductive Level where
  | info | warning | debug
  deriving DecidableEq

structure Entry where
  level : Level
  message : String
  deriving DecidableEq

/-- The mark of a level, in colour for a terminal. -/
def Level.mark : Level → String
  | info => "\x1b[92m\x1b[1mINFO:\x1b[0m "
  | warning => "\x1b[93m\x1b[1mWARNING:\x1b[0m "
  | debug => "\x1b[94mDEBUG:\x1b[0m "

def Entry.text (e : Entry) : String :=
  e.level.mark ++ e.message ++ "\n"

/-- The entries as shown; debug entries only on request. -/
def text (verbose : Bool) (log : List Entry) : String :=
  String.join ((log.filter fun e => verbose || e.level ≠ .debug).map Entry.text)

end Log

structure Logged (ε α : Type) where
  log : List Log.Entry
  outcome : Except ε α

namespace Logged

variable {ε δ α β : Type}

def ok (a : α) : Logged ε α := ⟨[], .ok a⟩

def fail (e : ε) : Logged ε α := ⟨[], .error e⟩

def bind (m : Logged ε α) (f : α → Logged ε β) : Logged ε β :=
  match m.outcome with
  | .error e => ⟨m.log, .error e⟩
  | .ok a => ⟨m.log ++ (f a).log, (f a).outcome⟩

instance : Monad (Logged ε) where
  pure := ok
  bind := bind

def ofExcept (outcome : Except ε α) : Logged ε α := ⟨[], outcome⟩

def mapError (f : ε → δ) (m : Logged ε α) : Logged δ α :=
  ⟨m.log, m.outcome.mapError f⟩

def write (level : Log.Level) (message : String) : Logged ε Unit :=
  ⟨[⟨level, message⟩], .ok ()⟩

def debug (message : String) : Logged ε Unit := write .debug message

def info (message : String) : Logged ε Unit := write .info message

def warning (message : String) : Logged ε Unit := write .warning message

end Logged

end Debundle
