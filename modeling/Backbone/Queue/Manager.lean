import Backbone.Queue.Compression
import Backbone.Queue.Fifo

/-!
# The queue manager

`QueueManager` keeps five maps by queue name: the queues, their configurations, and the monitor, the
compressor and the FIFO wrapper that a configuration may ask for. Registration fills the maps,
removal clears them, and an update of the configuration writes one of them.

A registration never removes what an earlier one of the same name left behind, and an update makes
nothing anew: the maps stay in step exactly when neither is asked for.

A queue is its handle, and what the three components count and cache is left out, as are the fields
of a configuration that no call reads. An `f64` is its bits.

Reference: `backbone-queue/src/queue_manager.rs`.
-/

namespace Backbone.Queue.Manager

open Machine

/-- `AlertThresholds`. -/
structure AlertThresholds where
  maxQueueSize : ℕ
  maxErrorRate : UInt64
  maxProcessingTimeMs : UInt64
  minMessagesPerSecond : UInt64
  maxDeadLetterMessages : ℕ
deriving DecidableEq, Repr

/-- The rates are 5.0, 5000.0 and 1.0. -/
instance : Inhabited AlertThresholds where
  default := {
    maxQueueSize := 1000
    maxErrorRate := 0x4014000000000000
    maxProcessingTimeMs := 0x40b3880000000000
    minMessagesPerSecond := 0x3ff0000000000000
    maxDeadLetterMessages := 10 }

/-- `CompressionConfig`, with the field the compressor does not read. -/
structure CompressionConfig extends Compression.CompressionConfig where
  maxAttempts : ℕ

instance : Inhabited CompressionConfig where
  default := {
    algorithm := .gzip
    level := 6
    minSize := 1024
    forceCompression := false
    maxAttempts := 3 }

/-- `FifoQueueConfig`, with the windows and the bounds. -/
structure FifoQueueConfig extends Fifo.FifoQueueConfig where
  deduplicationWindowSeconds : ℕ
  maxMessageGroups : ℕ
  contentDeduplicationWindowSeconds : ℕ
  maxDeduplicatedMessages : ℕ

namespace FifoQueueConfig

/-- `validate_config`: every fault it finds. -/
def validateConfig (c : FifoQueueConfig) : List String :=
  (if c.deduplicationWindowSeconds = 0 then
    ["Deduplication window must be greater than 0 seconds"] else []) ++
  (if 86400 * 7 < c.deduplicationWindowSeconds then
    ["Deduplication window cannot exceed 7 days"] else []) ++
  (if c.maxMessageGroups = 0 then ["Max message groups must be greater than 0"] else []) ++
  (if 100000 < c.maxMessageGroups then ["Max message groups cannot exceed 100000"] else []) ++
  (if c.contentDeduplicationWindowSeconds = 0 ∧ c.enableContentDeduplication then
    ["Content deduplication window must be greater than 0 seconds when enabled"] else []) ++
  if c.maxDeduplicatedMessages = 0 then ["Max deduplicated messages must be greater than 0"] else []

/-- `get_recommended_config(MessageVolume::Medium)`. -/
def medium : FifoQueueConfig where
  enabled := true
  enableContentDeduplication := true
  deduplicationWindowSeconds := 900
  maxMessageGroups := 10000
  contentDeduplicationWindowSeconds := 300
  maxDeduplicatedMessages := 50000

/-- The recommended configuration has no fault. -/
example : medium.validateConfig = [] := rfl

end FifoQueueConfig

/-- `QueueConfig`. -/
structure QueueConfig where
  name : String
  queueType : String
  connectionUrl : String
  visibilityTimeout : ℕ
  maxReceiveCount : ℕ
  fifoEnabled : Bool
  fifoConfig : Option FifoQueueConfig
  compressionEnabled : Bool
  compressionConfig : Option CompressionConfig
  monitoringEnabled : Bool
  alertThresholds : Option AlertThresholds
  updatedAt : ℤ

inductive QueueError where
  | configError (message : String)
  | notFound (message : String)
deriving DecidableEq, Repr

/-- `QueueMonitorService`. -/
structure QueueMonitorService (κ : Type) where
  queue : κ
  thresholds : AlertThresholds
deriving DecidableEq

/-- `MessageCompressor`. -/
structure MessageCompressor where
  config : CompressionConfig

/-- `FifoQueueServiceWrapper`. -/
structure FifoQueueServiceWrapper (κ : Type) where
  inner : κ
  config : FifoQueueConfig

namespace QueueConfig

/-- `QueueConfig::new`. -/
def new (name queueType connectionUrl : String) (now : ℤ) : QueueConfig where
  name := name
  queueType := queueType
  connectionUrl := connectionUrl
  visibilityTimeout := 30
  maxReceiveCount := 3
  fifoEnabled := false
  fifoConfig := none
  compressionEnabled := false
  compressionConfig := none
  monitoringEnabled := true
  alertThresholds := some default
  updatedAt := now

def touch (c : QueueConfig) (now : ℤ) : QueueConfig := { c with updatedAt := now }

def validate (c : QueueConfig) : Except String Unit :=
  if c.name.isEmpty then .error "Queue name cannot be empty"
  else if c.queueType.isEmpty then .error "Queue type cannot be empty"
  else if c.connectionUrl.isEmpty then .error "Connection URL cannot be empty"
  else if c.visibilityTimeout = 0 then .error "Visibility timeout must be greater than 0"
  else if c.maxReceiveCount = 0 then .error "Max receive count must be greater than 0"
  else
    match c.fifoEnabled, c.fifoConfig with
    | true, some fifo =>
      if fifo.validateConfig.isEmpty then .ok ()
      else .error ("FIFO configuration errors: " ++ ", ".intercalate fifo.validateConfig)
    | _, _ => .ok ()

variable {κ : Type}

/-- The monitor `register_queue` makes. -/
def monitor (queue : κ) (c : QueueConfig) : QueueMonitorService κ :=
  ⟨queue, c.alertThresholds.getD default⟩

/-- The compressor `register_queue` makes; it knows no queue. -/
def compressor (_ : κ) (c : QueueConfig) : MessageCompressor := ⟨c.compressionConfig.getD default⟩

/-- The FIFO wrapper `register_queue` makes. -/
def fifoWrapper (queue : κ) (c : QueueConfig) : FifoQueueServiceWrapper κ :=
  ⟨queue, c.fifoConfig.getD .medium⟩

end QueueConfig

/-- `HashMap<String, _>`. -/
abbrev Named (α : Type) := AList fun _ : String => α

/-- `QueueManager`; `κ` is the handle of a queue. -/
structure QueueManager (κ : Type) where
  queues : Named κ
  configs : Named QueueConfig
  monitors : Named (QueueMonitorService κ)
  compressors : Named MessageCompressor
  fifoWrappers : Named (FifoQueueServiceWrapper κ)

/-- Insert what is made under the name, if it is enabled. -/
def addIfEnabled {α : Type} (enabled : Bool) (name : String) (made : α) (m : Named α) : Named α :=
  if enabled then m.insert name made else m

namespace QueueManager

variable {κ : Type} (m : QueueManager κ)

def new (κ : Type) : QueueManager κ := ⟨∅, ∅, ∅, ∅, ∅⟩

/-- `register_queue` behind its validation. -/
def registered (queue : κ) (config : QueueConfig) : QueueManager κ where
  queues := m.queues.insert config.name queue
  configs := m.configs.insert config.name config
  monitors := addIfEnabled config.monitoringEnabled config.name (config.monitor queue) m.monitors
  compressors :=
    addIfEnabled config.compressionEnabled config.name (config.compressor queue) m.compressors
  fifoWrappers :=
    addIfEnabled config.fifoEnabled config.name (config.fifoWrapper queue) m.fifoWrappers

def registerQueue (queue : κ) (config : QueueConfig) : Except QueueError (QueueManager κ) :=
  match config.validate with
  | .error e => .error (.configError e)
  | .ok () => .ok (m.registered queue config)

def unregisterQueue (queueName : String) : QueueManager κ where
  monitors := m.monitors.erase queueName
  queues := m.queues.erase queueName
  configs := m.configs.erase queueName
  compressors := m.compressors.erase queueName
  fifoWrappers := m.fifoWrappers.erase queueName

def updateConfig (queueName : String) (config : QueueConfig) (now : ℤ) :
    Except QueueError (QueueManager κ) :=
  match config.validate with
  | .error e => .error (.configError e)
  | .ok () => .ok { m with configs := m.configs.insert queueName (config.touch now) }

def getQueue (queueName : String) : Except QueueError κ :=
  (m.queues.lookup queueName).elim (.error (.notFound s!"Queue '{queueName}' not found")) .ok

def getFifoQueue (queueName : String) : Except QueueError (FifoQueueServiceWrapper κ) :=
  (m.fifoWrappers.lookup queueName).elim
    (.error (.notFound s!"FIFO wrapper for queue '{queueName}' not found")) .ok

def getConfig (queueName : String) : Except QueueError QueueConfig :=
  (m.configs.lookup queueName).elim
    (.error (.notFound s!"Configuration for queue '{queueName}' not found")) .ok

end QueueManager

/-- A call, with the time of the clock where it reads one. -/
inductive Call (κ : Type) where
  | registerQueue (queue : κ) (config : QueueConfig)
  | unregisterQueue (queueName : String)
  | updateConfig (queueName : String) (config : QueueConfig) (now : ℤ)

/-- The manager behind a call; a call that fails leaves it as it is. -/
def QueueManager.step {κ : Type} (m : QueueManager κ) : Call κ → QueueManager κ
  | .registerQueue queue config => ((m.registerQueue queue config).toOption).getD m
  | .unregisterQueue queueName => m.unregisterQueue queueName
  | .updateConfig queueName config now =>
    ((m.updateConfig queueName config now).toOption).getD m

/-! ## One map -/

section Serves

variable {κ α : Type} {queues : Named κ} {configs : Named QueueConfig} {made : Named α}
  {enabled : QueueConfig → Bool} {make : κ → QueueConfig → α}

/-- The map holds what is made of the registered queues that have it enabled, and nothing else. -/
def Serves (queues : Named κ) (configs : Named QueueConfig) (made : Named α)
    (enabled : QueueConfig → Bool) (make : κ → QueueConfig → α) : Prop :=
  ∀ name, made.lookup name = (queues.lookup name).bind fun queue =>
    (configs.lookup name).bind fun config =>
      if enabled config then some (make queue config) else none

theorem lookup_addIfEnabled (b : Bool) (name k : String) (a : α) (m : Named α) :
    (addIfEnabled b name a m).lookup k = if b ∧ k = name then some a else m.lookup k := by
  unfold addIfEnabled
  cases b with
  | false => simp
  | true =>
    by_cases hk : k = name
    · subst hk
      simp
    · simp [hk, AList.lookup_insert_ne hk]

section

variable (h : Serves queues configs made enabled make) (name : String)
include h

/-- A registration serves the map unless it turns off what the name still has. -/
theorem Serves.register (queue : κ)
    (config : QueueConfig) :
    Serves (queues.insert config.name queue) (configs.insert config.name config)
        (addIfEnabled (enabled config) config.name (make queue config) made) enabled make ↔
      (enabled config = false → made.lookup config.name = none) := by
  constructor
  · intro hserves hoff
    have hname := hserves config.name
    simpa [lookup_addIfEnabled, hoff] using hname
  · intro hleft name
    rw [lookup_addIfEnabled]
    by_cases hk : name = config.name
    · subst hk
      cases hon : enabled config with
      | true => simp [hon]
      | false => simp [hon, hleft hon]
    · rw [AList.lookup_insert_ne hk, AList.lookup_insert_ne hk, if_neg (by simp [hk])]
      exact h name

theorem Serves.unregister :
    Serves (queues.erase name) (configs.erase name) (made.erase name) enabled make := by
  intro k
  by_cases hk : k = name
  · subst hk
    simp
  · rw [AList.lookup_erase_ne hk, AList.lookup_erase_ne hk, AList.lookup_erase_ne hk]
    exact h k

/-- An update serves the map unless the name is registered and is to have something else in it. -/
theorem Serves.update (config : QueueConfig) :
    Serves queues (configs.insert name config) made enabled make ↔
      ∀ queue, queues.lookup name = some queue →
        made.lookup name = if enabled config then some (make queue config) else none := by
  constructor
  · intro hserves queue hqueue
    have hname := hserves name
    simpa [hqueue] using hname
  · intro hsame k
    by_cases hk : k = name
    · subst hk
      cases hqueue : queues.lookup k with
      | none => simp [h k, hqueue]
      | some queue => simp [hsame queue hqueue]
    · rw [AList.lookup_insert_ne hk]
      exact h k

end

end Serves

/-! ## The five maps -/

namespace QueueManager

variable {κ : Type} {m : QueueManager κ} {config : QueueConfig}

/-- For every name the three components are those its queue and its configuration ask for. -/
structure Coherent (m : QueueManager κ) : Prop where
  monitors : Serves m.queues m.configs m.monitors (·.monitoringEnabled) QueueConfig.monitor
  compressors : Serves m.queues m.configs m.compressors (·.compressionEnabled) QueueConfig.compressor
  fifoWrappers : Serves m.queues m.configs m.fifoWrappers (·.fifoEnabled) QueueConfig.fifoWrapper

/-- The call asks for nothing to be removed or made anew outside a registration: a configuration to
be registered turns off no component that its name has, and one for a registered name asks for the
components that are there. -/
def Keeps (m : QueueManager κ) : Call κ → Prop
  | .registerQueue _ config =>
    config.validate = .ok () →
      (config.monitoringEnabled = false → m.monitors.lookup config.name = none) ∧
      (config.compressionEnabled = false → m.compressors.lookup config.name = none) ∧
      (config.fifoEnabled = false → m.fifoWrappers.lookup config.name = none)
  | .unregisterQueue _ => True
  | .updateConfig name config _ =>
    config.validate = .ok () → ∀ queue, m.queues.lookup name = some queue →
      m.monitors.lookup name =
          (if config.monitoringEnabled then some (config.monitor queue) else none) ∧
      m.compressors.lookup name =
          (if config.compressionEnabled then some (config.compressor queue) else none) ∧
      m.fifoWrappers.lookup name =
          if config.fifoEnabled then some (config.fifoWrapper queue) else none

theorem coherent_new : Coherent (new κ) := ⟨fun _ => rfl, fun _ => rfl, fun _ => rfl⟩

theorem coherent_iff (m : QueueManager κ) :
    m.Coherent ↔
      Serves m.queues m.configs m.monitors (·.monitoringEnabled) QueueConfig.monitor ∧
      Serves m.queues m.configs m.compressors (·.compressionEnabled) QueueConfig.compressor ∧
      Serves m.queues m.configs m.fifoWrappers (·.fifoEnabled) QueueConfig.fifoWrapper :=
  ⟨fun h => ⟨h.monitors, h.compressors, h.fifoWrappers⟩, fun ⟨h₁, h₂, h₃⟩ => ⟨h₁, h₂, h₃⟩⟩

/-- A call that is refused leaves the manager as it is. -/
theorem step_of_invalid {e : String} (h : config.validate = .error e) :
    (∀ queue, m.step (.registerQueue queue config) = m) ∧
      ∀ name now, m.step (.updateConfig name config now) = m := by
  constructor
  · intro queue
    simp [step, registerQueue, h, Except.toOption]
  · intro name now
    simp [step, updateConfig, h, Except.toOption]

theorem step_register (h : config.validate = .ok ()) (queue : κ) :
    m.step (.registerQueue queue config) = m.registered queue config := by
  simp [step, registerQueue, h, Except.toOption]

theorem step_update (h : config.validate = .ok ()) (name : String) (now : ℤ) :
    m.step (.updateConfig name config now) =
      { m with configs := m.configs.insert name (config.touch now) } := by
  simp [step, updateConfig, h, Except.toOption]

/-- A call keeps a coherent manager coherent exactly when it meets the condition. -/
theorem Coherent.step_iff (h : m.Coherent) (c : Call κ) : (m.step c).Coherent ↔ m.Keeps c := by
  cases c with
  | registerQueue queue config =>
    cases hvalid : config.validate with
    | error e => simp [(step_of_invalid hvalid).1, h, Keeps, hvalid]
    | ok u =>
      rw [step_register hvalid, coherent_iff]
      simp only [Keeps, hvalid, forall_const]
      exact and_congr (h.monitors.register queue config)
        (and_congr (h.compressors.register queue config) (h.fifoWrappers.register queue config))
  | unregisterQueue name =>
    exact iff_of_true
      ⟨h.monitors.unregister name, h.compressors.unregister name, h.fifoWrappers.unregister name⟩
      trivial
  | updateConfig name config now =>
    cases hvalid : config.validate with
    | error e => simp [(step_of_invalid hvalid).2, h, Keeps, hvalid]
    | ok u =>
      -- The components a configuration asks for do not depend on its time stamp.
      have hmonitors := h.monitors.update name (config.touch now)
      have hcompressors := h.compressors.update name (config.touch now)
      have hfifoWrappers := h.fifoWrappers.update name (config.touch now)
      rw [step_update hvalid, coherent_iff]
      simp only [Keeps, hvalid, forall_const, forall_and]
      exact and_congr hmonitors (and_congr hcompressors hfifoWrappers)

/-- The manager is coherent after every call of a run exactly when each call of it, met by the state
it finds, turns off nothing its name has and asks a registered name for nothing new. -/
theorem coherent_along_iff (calls : List (Call κ)) :
    Along step (fun m c => (m.step c).Coherent) (new κ) calls ↔ Along step Keeps (new κ) calls :=
  along_iff_of_invariant step (fun _ c h hkeeps => (h.step_iff c).mpr hkeeps)
    (fun _ c h => h.step_iff c) coherent_new

/-- A FIFO queue, and then another queue without FIFO under its name. -/
def reregistered : List (Call ℕ) :=
  [.registerQueue 0 { QueueConfig.new "jobs" "redis" "redis://a" 0 with fifoEnabled := true },
    .registerQueue 1 (QueueConfig.new "jobs" "redis" "redis://b" 1)]

/-- FIFO turned on for a queue that is registered without it. -/
def turnedOn : List (Call ℕ) :=
  [.registerQueue 0 (QueueConfig.new "jobs" "redis" "redis://a" 0),
    .updateConfig "jobs" { QueueConfig.new "jobs" "redis" "redis://a" 0 with fifoEnabled := true } 1]

/-- The wrapper of the replaced queue is still given out, and a wrapper that was turned on is not. -/
theorem not_coherent :
    ¬ (run step (new ℕ) reregistered).Coherent ∧ ¬ (run step (new ℕ) turnedOn).Coherent := by
  constructor
  · intro h
    exact absurd (congrArg Option.isSome (h.fifoWrappers "jobs")) (by decide +kernel)
  · intro h
    exact absurd (congrArg Option.isSome (h.fifoWrappers "jobs")) (by decide +kernel)

end QueueManager

end Backbone.Queue.Manager
