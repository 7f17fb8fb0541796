import RuleGraph.Registry

/-!
# The standard registry

The operations of survey rules and participant actions, and the operation that each kind of node
starts with.
-/

namespace RuleGraph

namespace Registry

def standardSchemas : List Schema :=
  [⟨"IF", .flowControl, ["condition", "true-branch", "false-branch"], .fixed 3, 2⟩,
   ⟨"IFTHEN", .flowControl, ["condition", "action"], .variadic 2, 1⟩,
   ⟨"DO", .flowControl, ["action"], .variadic 1, 1⟩,
   ⟨"and", .logical, [], .variadic 2, 2⟩,
   ⟨"or", .logical, [], .variadic 2, 2⟩,
   ⟨"not", .logical, ["operand"], .fixed 1, 1⟩,
   ⟨"eq", .comparison, ["left", "right"], .fixed 2, 2⟩,
   ⟨"lt", .comparison, ["left", "right"], .fixed 2, 2⟩,
   ⟨"lte", .comparison, ["left", "right"], .fixed 2, 2⟩,
   ⟨"gt", .comparison, ["left", "right"], .fixed 2, 2⟩,
   ⟨"gte", .comparison, ["left", "right"], .fixed 2, 2⟩,
   ⟨"isDefined", .comparison, ["value"], .fixed 1, 1⟩,
   ⟨"checkEventType", .comparison, ["event type"], .fixed 1, 1⟩,
   ⟨"checkSurveyResponseKey", .comparison, ["survey key"], .fixed 1, 1⟩,
   ⟨"hasStudyStatus", .comparison, ["status"], .fixed 1, 1⟩,
   ⟨"responseHasKeysAny", .comparison, ["item key", "response path", "key"], .variadic 3, 3⟩,
   ⟨"getAttribute", .dynamicValue, ["object", "attribute"], .fixed 2, 2⟩,
   ⟨"timestampWithOffset", .dynamicValue, ["offset", "reference"], .variadic 1, 1⟩,
   ⟨"getResponseValueAsNum", .dynamicValue, ["item key", "response path"], .fixed 2, 2⟩,
   ⟨"getStudyEntryTime", .dynamicValue, [], .fixed 0, 0⟩,
   ⟨"getContext", .dynamicValue, [], .fixed 0, 0⟩,
   ⟨"getResponses", .dynamicValue, [], .fixed 0, 0⟩,
   ⟨"ADD_NEW_SURVEY", .action,
     ["survey key", "activate from", "activate until", "category"], .fixed 4, 4⟩,
   ⟨"REMOVE_ALL_SURVEYS", .action, [], .fixed 0, 0⟩,
   ⟨"REMOVE_SURVEYS_BY_KEY", .action, ["survey key", "category"], .fixed 2, 2⟩,
   ⟨"UPDATE_STUDY_STATUS", .action, ["status"], .fixed 1, 1⟩,
   ⟨"UPDATE_FLAG", .action, ["key", "value"], .fixed 2, 2⟩,
   ⟨"REMOVE_FLAG", .action, ["key"], .fixed 1, 1⟩,
   ⟨"ADD_REPORT", .action, ["report key"], .fixed 1, 1⟩]

def standardDefaults : List (NodeKind × String) :=
  [(.flowControl, "IF"), (.logical, "and"), (.comparison, "eq"),
   (.dynamicValue, "getAttribute"), (.action, "UPDATE_FLAG")]

def standard : Registry :=
  standardDefaults.foldl (fun registry choice => registry.setDefault choice.1 choice.2)
    (standardSchemas.foldl register empty)

end Registry

end RuleGraph
