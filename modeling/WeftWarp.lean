import WeftWarp.Theorems.ValueEquality
import WeftWarp.Theorems.StateHash
import WeftWarp.Theorems.JsonGrammar
import WeftWarp.Theorems.JsonRobust
import WeftWarp.Theorems.PlanTiming
import WeftWarp.Theorems.ReBACText
import WeftWarp.Theorems.CallKeys
import WeftWarp.Theorems.SoundnessContract
import WeftWarp.Theorems.SplitDocuments
import WeftWarp.Theorems.ReBACExpand
import WeftWarp.Theorems.ReBACReports
import WeftWarp.Theorems.FanoutSketch
import WeftWarp.Theorems.FanoutDelivery
import WeftWarp.Theorems.CivilPlans
import WeftWarp.Theorems.TemplateMeaning
import WeftWarp.Theorems.LoadedTasks
import WeftWarp.Theorems.IntegerExpressions
import WeftWarp.Theorems.RotationNodes
import WeftWarp.Theorems.Substitution
import WeftWarp.Theorems.CombatRules
import WeftWarp.Theorems.ProgressionLedger
import WeftWarp.Theorems.LootWeights
import WeftWarp.Theorems.LootPeriod
import WeftWarp.Theorems.FlatLists
import WeftWarp.Theorems.ReplanReport
import WeftWarp.Theorems.TreeHierarchy
import WeftWarp.Theorems.RelationSentences
import WeftWarp.Theorems.ContextCycles
import WeftWarp.Theorems.Sha256
import WeftWarp.Theorems.LoadTicks
import WeftWarp.Theorems.ConcurrentCalls
import WeftWarp.Theorems.McCoupling
