import TreeDigest.Registry
import TreeDigest.Settings.Reading

/-!
# What to check

A plan names the sizes of the documents to generate, the seed to generate them
from, the codecs to run and the parameters of the fold. It can be read from
settings, in which everything that is missing has a default. A plan is valid if
it names only codecs that exist and asks for no deeper nesting than any fold
allows; reading a plan does not validate it.
-/

namespace TreeDigest

/-- Why a plan cannot be carried out. -/
inductive PlanError where
  | unreadable (file report : String)
  | invalid (fault : Settings.Fault)
  | unknownCodec (name : String)
  | depthLimit (requested ceiling : Nat)

def PlanError.message : PlanError → String
  | .unreadable file report => s!"failed to read config file {file}: {report}"
  | .invalid fault => "invalid config at JSON path " ++ fault.path.message ++ ": " ++ fault.reason
  | .unknownCodec name => "unknown codec " ++ Text.quoted name
  | .depthLimit requested ceiling =>
    s!"max_depth {requested} is above the supported ceiling of {ceiling}"

/-- The causes behind an error, each in its own words. -/
def PlanError.sources : PlanError → List String
  | .unreadable _ report => [report]
  | .invalid fault => [fault.reason]
  | _ => []

/-- An error and the causes behind it, one after the other. -/
def PlanError.chain (e : PlanError) : String := ": ".intercalate (e.message :: e.sources)

/-! ## Parameters of a fold -/

namespace FoldOptions

/-- The key orders by their names. -/
def keyOrders : List (String × KeyOrder) := [("preserve", .preserve), ("sorted", .sorted)]

/-- The fields that the parameters of a fold are read from. -/
def fields : List (Settings.Field FoldOptions) :=
  [ .of "seed" (Settings.natural UInt32.size "u32")
      fun seed o => { o with seed := seed.toUInt32 },
    .of "key_order" (Settings.choice keyOrders) fun keyOrder o => { o with keyOrder },
    .of "max_depth" (Settings.natural UInt64.size "usize")
      fun maxDepth o => { o with maxDepth } ]

/-- Reads the parameters of a fold. -/
def setting : Settings.Path → Settings.Reading FoldOptions :=
  Settings.record "FoldOptions" fields {}

/-- Refuses a depth that no fold allows. -/
def validate (o : FoldOptions) : Except PlanError Unit :=
  if depthCeiling < o.maxDepth then .error (.depthLimit o.maxDepth depthCeiling) else .ok ()

end FoldOptions

/-! ## Plans -/

/-- What to generate and which codecs to run on it. -/
structure Plan where
  /-- How many nodes each document has. -/
  sizes : List Nat := [1, 10, 100, 1000, 10000]
  /-- The seed of every document. -/
  seed : UInt64 := 24301
  /-- The names of the codecs to run; none stands for all of them. -/
  codecs : List String := []
  fold : FoldOptions := {}
  deriving DecidableEq

namespace Plan

/-- The fields that a plan is read from. -/
def fields : List (Settings.Field Plan) :=
  [ .of "sizes" (Settings.list (Settings.natural UInt64.size "usize"))
      fun sizes plan => { plan with sizes },
    .of "seed" (Settings.natural UInt64.size "u64")
      fun seed plan => { plan with seed := seed.toUInt64 },
    .of "codecs" (Settings.list Settings.text)
      fun names plan => { plan with codecs := names.map Utf8.toText },
    .of "fold" FoldOptions.setting fun fold plan => { plan with fold } ]

/-- Reads a plan. -/
def setting : Settings.Path → Settings.Reading Plan :=
  Settings.record "CheckConfig" fields {}

/-- The plan that a text holds. -/
def ofBytes (input : Bytes) : Except PlanError Plan :=
  match Settings.run setting input with
  | .ok plan => .ok plan
  | .error fault => .error (.invalid fault)

/-- Refuses a plan with a codec that does not exist, or with a depth that no fold allows. -/
def validate (plan : Plan) : Except PlanError Unit :=
  match plan.codecs.find? fun name => (Codec.ofName? name).isNone with
  | some name => .error (.unknownCodec name)
  | none => plan.fold.validate

/-- The codecs of a plan, each once and in the order of all codecs. -/
def selected (plan : Plan) : List Codec :=
  Codec.all.filter fun codec => plan.codecs.isEmpty || plan.codecs.contains codec.name

end Plan

end TreeDigest
