import Mathlib.Data.Char
import MqttExporter.Base.OrderedMap
import MqttExporter.Base.Double

/-!
# Configuration and surroundings

What the YAML file configures, and what the code calls that the repository
does not contain. A string is the list of its bytes, read as characters.
-/

namespace MqttExporter

abbrev Str := List Char

structure Label where
  key : Str
  value : Str
  deriving DecidableEq

abbrev LabelSet := OrderedMap Str Str

inductive Target where
  | topic
  | payload
  deriving DecidableEq

structure Variable where
  name : Str
  target : Target
  regex : Str
  deriving DecidableEq

/-- `OpenMetric::Type`. -/
inductive MetricType where
  | counter
  | gauge
  | histogram
  | summary
  | matchGauge
  deriving DecidableEq

/-- `quantiles`, `max_age` and `age_buckets` are read by nothing. -/
structure OpenMetric where
  name : Str
  type : MetricType
  help : Str
  unit : Str
  labels : List Label
  payloadJsonPath : Str
  payloadRegex : Str
  buckets : List Double
  matchRegex : Str
  deriving DecidableEq

/-- `IMetricFamily::Configuration`. Durations and clock readings are ticks of
the system clock. -/
structure Configuration where
  topic : Str
  openMetric : OpenMetric
  vars : List Variable
  maxAge : Int
  deriving DecidableEq

/-- What can be thrown, with the text where the code gives one. -/
inductive Error where
  | mosquitto (what : String)
  | client (what : String)
  | runtime (what : String)
  | regex
  | json
  deriving DecidableEq

/-- The return codes of `mosquitto_topic_matches_sub`. -/
inductive MosqErr where
  | success
  | inval
  | nomem
  | other
  deriving DecidableEq

/-- The libraries the code calls. A regular expression is its pattern; a search
or a match gives the text of the first group. -/
structure Libraries where
  topicMatchesSub : Str → Str → MosqErr × Bool
  regexValid : Str → Bool
  regexSearch : Str → Str → Except Error (Option Str)
  regexMatch : Str → Str → Except Error (Option Str)
  regexCount : Str → Str → Except Error Nat
  /-- Parse the payload, take what the pointer names, and dump it. -/
  jsonAt : Str → Str → Except Error Str
  /-- The reading that the n-th call of `system_clock::now` returns. -/
  clock : Nat → Int
  /-- The order in which a hash table with this content is iterated. -/
  hashOrder : OrderedMap Str Str → List (Str × Str)
  hashOrder_perm : ∀ m, (hashOrder m).Perm m.entries
  /-- What an uninitialised `double` holds. -/
  uninitialised : Double

/-- `std::regex{pattern}`. -/
def Libraries.regex (lib : Libraries) (pattern : Str) : Except Error Str :=
  if lib.regexValid pattern then .ok pattern else .error .regex

/-- `std::regex_search(source, match, regex) ? match[1].str() : ""`. -/
def Libraries.searchGroup (lib : Libraries) (pattern source : Str) : Except Error Str := do
  let regex ← lib.regex pattern
  let found ← lib.regexSearch regex source
  return found.getD []

/-- Libraries for small runs: the only wildcard is a filter `#`, the only
pattern with a group is `(.*)`, and no payload is JSON. -/
def simpleLibraries : Libraries where
  topicMatchesSub filter topic :=
    if filter = [] ∨ topic = [] then (.inval, false)
    else if filter = "#".toList then (.success, topic.head? ≠ some '$')
    else if filter.contains '#' then (.inval, false)
    else (.success, filter = topic)
  regexValid pattern := pattern ≠ "(".toList
  regexSearch pattern source := .ok (if pattern = "(.*)".toList then some source else none)
  regexMatch pattern source := .ok (if pattern = "(.*)".toList then some source else none)
  regexCount pattern source := .ok (source.countP fun c => [c] = pattern)
  jsonAt _ _ := .error .json
  clock n := n
  hashOrder m := m.entries
  hashOrder_perm m := List.Perm.refl m.entries
  uninitialised := Double.ofInt 0

/-- A counter with no labels and no variables, for small runs. -/
def counterEntry (topic name : String) : Configuration :=
  ⟨topic.toList, ⟨name.toList, .counter, [], [], [], [], [], [], []⟩, [], 86400⟩

end MqttExporter
