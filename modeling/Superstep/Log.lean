namespace Superstep

inductive LogLevel where
  | error
  | debug
  | trace
deriving DecidableEq

def LogLevel.name : LogLevel → String
  | error => "ERROR"
  | debug => "DEBUG"
  | trace => "TRACE"

/-- One line that is reported while work goes on. -/
structure LogLine where
  level : LogLevel
  text : String
deriving DecidableEq

end Superstep
