import Playbook.Document.Decode
import Playbook.Files
import Playbook.Settings

/-!
# Reading settings

Settings as documents. Every field may be missing and then has its default. All numbers are unsigned
integers of 64 bits, except for the number of retries, which has 32.
-/

namespace Playbook

namespace Settings

/-- A count of 64 bits. -/
def count64 : Document → Decode.Decoded Nat := Decode.count (twoTo 64)

/-- The fields of the defaults of blocks. -/
def parallelFields : List (Decode.Field ParallelDefaults) := [
  Decode.field "max_concurrency" count64 fun p maxConcurrency => { p with maxConcurrency },
  Decode.field "timeout" count64 fun p timeout => { p with timeout },
  Decode.field "fail_fast" Decode.bool fun p failFast => { p with failFast }]

/-- The fields of the defaults of batches. -/
def batchFields : List (Decode.Field BatchDefaults) := [
  Decode.field "size" count64 fun b size => { b with size },
  Decode.field "delay" count64 fun b delay => { b with delay },
  Decode.field "max_retries" (Decode.count (twoTo 32)) fun b maxRetries => { b with maxRetries },
  Decode.field "retry_delay" count64 fun b retryDelay => { b with retryDelay }]

/-- The fields of the defaults of races. -/
def raceFields : List (Decode.Field Nat) := [
  Decode.field "timeout" count64 fun _ timeout => timeout]

/-- The fields of settings. -/
def fields : List (Decode.Field Settings) := [
  Decode.field "max_keyword_depth" count64 fun s maxKeywordDepth => { s with maxKeywordDepth },
  Decode.field "max_while_iterations" count64 fun s maxWhileIterations =>
    { s with maxWhileIterations },
  Decode.field "parallel" (Decode.struct parallelFields default.parallel .ok)
    fun s parallel => { s with parallel },
  Decode.field "batch" (Decode.struct batchFields default.batch .ok) fun s batch =>
    { s with batch },
  Decode.field "race" (Decode.struct raceFields default.raceTimeout .ok)
    fun s raceTimeout => { s with raceTimeout },
  Decode.field "record_control_steps" Decode.bool
    fun s recordControlSteps => { s with recordControlSteps }]

/-- Settings from a document. -/
def decode : Document → Decode.Decoded Settings :=
  Decode.struct fields default .ok

/-- Settings as they are written. -/
def toValue (s : Settings) : Value :=
  .record [
    ("max_keyword_depth", .nat s.maxKeywordDepth),
    ("max_while_iterations", .nat s.maxWhileIterations),
    ("parallel", .record [
      ("max_concurrency", .nat s.parallel.maxConcurrency),
      ("timeout", .nat s.parallel.timeout),
      ("fail_fast", .bool s.parallel.failFast)]),
    ("batch", .record [
      ("size", .nat s.batch.size),
      ("delay", .nat s.batch.delay),
      ("max_retries", .nat s.batch.maxRetries),
      ("retry_delay", .nat s.batch.retryDelay)]),
    ("race", .record [("timeout", .nat s.raceTimeout)]),
    ("record_control_steps", .bool s.recordControlSteps)]

/-- Why settings cannot be read. -/
inductive SettingsError where
  | unreadable (fault : ReadFault)
  | unreadableContent (fault : ReadFault)
  | inFile (fault : Decode.Fault)
  | inText (fault : Decode.Fault)

/-- The wording of an error. -/
def SettingsError.message : SettingsError → String
  | unreadable fault => "Failed to open config file: " ++ fault.message
  | unreadableContent fault => "Failed to parse config file: " ++ fault.message
  | inFile fault => "Failed to parse config file: " ++ fault.message
  | inText fault => "Failed to parse config: " ++ fault.message

/-- Settings from a JSON text. -/
def ofJson (text : String) : Except SettingsError Settings :=
  (Decode.ofJson decode text).mapError .inText

/-- Settings from a JSON file. A directory can be opened but not read. -/
def ofFile (files : Files) (path : String) : Except SettingsError Settings :=
  match files.read path with
  | .error fault => .error (if fault.isOpened then .unreadableContent fault else .unreadable fault)
  | .ok text => (Decode.ofJson decode text).mapError .inFile

end Settings

end Playbook
