import Mathlib.Data.List.AList
import Contur.Directory
import Contur.MessageBytes
import Contur.Pipe
import Contur.SharedMemory

/-!
# The manager of the channels

The manager keeps channels of three kinds under their names. A channel is created when
its name is free; a creation under a name that is in use succeeds and leaves the channel
as it is, even if it is of another kind. Callers get a reference to a channel by its
name and use it through the interface that the three kinds share. A call of the manager,
or one use of a channel, is one step.
-/

namespace Contur
open Transition
open Directory (Effect Keeps answers)

inductive IpcChannel where
  | pipe (p : Pipe)
  | sharedMemory (m : SharedMemory)
  | messageQueue (q : MessageQueue)
  deriving DecidableEq

namespace IpcChannel

inductive Op where
  | write (data : List UInt8)
  | read (span : List UInt8)
  | close
  | isOpen
  deriving DecidableEq, Repr

inductive Response where
  | written (r : Result ℕ)
  | got (r : Result ℕ) (span : List UInt8)
  | closed
  | opened (isOpen : Bool)
  deriving DecidableEq, Repr

def write (data : List UInt8) : IpcChannel → Result ℕ × IpcChannel
  | .pipe p => (p.write data).map id .pipe
  | .sharedMemory m => (m.write data).map id .sharedMemory
  | .messageQueue q => (q.write data).map id .messageQueue

def read (span : List UInt8) : IpcChannel → (Result ℕ × List UInt8) × IpcChannel
  | .pipe p => (p.read span).map id .pipe
  | .sharedMemory m => (m.read span, .sharedMemory m)
  | .messageQueue q => (q.read span).map id .messageQueue

def close : IpcChannel → IpcChannel
  | .pipe p => .pipe p.close
  | .sharedMemory m => .sharedMemory m.close
  | .messageQueue q => .messageQueue q.close

def isOpen : IpcChannel → Bool
  | .pipe p => p.isOpen
  | .sharedMemory m => m.isOpen
  | .messageQueue q => q.isOpen

def exec (channel : IpcChannel) : Op → Response × IpcChannel
  | .write data => (.written (channel.write data).1, (channel.write data).2)
  | .read span => (.got (channel.read span).1.1 (channel.read span).1.2, (channel.read span).2)
  | .close => (.closed, channel.close)
  | .isOpen => (.opened channel.isOpen, channel)

def machine : Machine IpcChannel Op Response := ⟨exec⟩

end IpcChannel

structure IpcManager where
  channels : AList (fun _ : String => IpcChannel) := ∅

namespace IpcManager

/-- What the three creations share. -/
def createChannel (m : IpcManager) (name : String) (channel : IpcChannel) :
    Result Unit × IpcManager :=
  if name.isEmpty then (.error .invalidArgument, m)
  else if name ∈ m.channels then (.ok (), m)
  else (.ok (), { m with channels := m.channels.insert name channel })

def createPipe (m : IpcManager) (name : String) (capacity : ℕ) : Result Unit × IpcManager :=
  m.createChannel name (.pipe (Pipe.init capacity))

def createSharedMemory (m : IpcManager) (name : String) (bytes : ℕ) : Result Unit × IpcManager :=
  m.createChannel name (.sharedMemory (SharedMemory.init bytes))

def createMessageQueue (m : IpcManager) (name : String) (maxMessages : ℕ) (priorityMode : Bool) :
    Result Unit × IpcManager :=
  m.createChannel name (.messageQueue (MessageQueue.init maxMessages priorityMode))

def getChannel (m : IpcManager) (name : String) : Result IpcChannel :=
  match m.channels.lookup name with
  | none => .error .notFound
  | some channel => .ok channel

def destroyChannel (m : IpcManager) (name : String) : Result Unit × IpcManager :=
  if name ∉ m.channels then (.error .notFound, m)
  else (.ok (), { m with channels := m.channels.erase name })

def «exists» (m : IpcManager) (name : String) : Bool := name ∈ m.channels

def useChannel (m : IpcManager) (name : String) (op : IpcChannel.Op) :
    Result IpcChannel.Response × IpcManager :=
  match m.getChannel name with
  | .error code => (.error code, m)
  | .ok channel =>
    let used := channel.exec op
    (.ok used.1, { m with channels := m.channels.insert name used.2 })

inductive Op where
  | createPipe (name : String) (capacity : ℕ)
  | createSharedMemory (name : String) (bytes : ℕ)
  | createMessageQueue (name : String) (maxMessages : ℕ) (priorityMode : Bool)
  | destroyChannel (name : String)
  | useChannel (name : String) (op : IpcChannel.Op)
  | «exists» (name : String)
  deriving DecidableEq, Repr

inductive Response where
  | done (r : Result Unit)
  | used (r : Result IpcChannel.Response)
  | found (isFound : Bool)
  deriving DecidableEq, Repr

def exec (m : IpcManager) : Op → Response × IpcManager
  | .createPipe name capacity => (m.createPipe name capacity).map .done id
  | .createSharedMemory name bytes => (m.createSharedMemory name bytes).map .done id
  | .createMessageQueue name maxMessages priorityMode =>
    (m.createMessageQueue name maxMessages priorityMode).map .done id
  | .destroyChannel name => (m.destroyChannel name).map .done id
  | .useChannel name op => (m.useChannel name op).map .used id
  | .exists name => (.found (m.exists name), m)

def machine : Machine IpcManager Op Response := ⟨exec⟩

def creates : Op → Option (String × IpcChannel)
  | .createPipe name capacity => some (name, .pipe (Pipe.init capacity))
  | .createSharedMemory name bytes => some (name, .sharedMemory (SharedMemory.init bytes))
  | .createMessageQueue name maxMessages priorityMode =>
    some (name, .messageQueue (MessageQueue.init maxMessages priorityMode))
  | _ => none

def nameOf : Op → String
  | .createPipe name _ | .createSharedMemory name _ | .createMessageQueue name _ _
  | .destroyChannel name | .useChannel name _ | .exists name => name

def concerns (name : String) (op : Op) : Bool := nameOf op = name

def created (name' : String) (channel : IpcChannel) (name : String) :
    Effect IpcChannel IpcChannel.Op :=
  if name'.isEmpty then .keep else if name' = name then .create channel else .keep

def effect (name : String) (op : Op) : Effect IpcChannel IpcChannel.Op :=
  match creates op, op with
  | some (name', channel), _ => created name' channel name
  | none, .destroyChannel name' => if name' = name then .destroy else .keep
  | none, .useChannel name' call => if name' = name then .call call else .keep
  | none, _ => .keep

def reply (name : String) (op : Op) (channel : Option IpcChannel) : Response :=
  match op with
  | .createPipe _ _ | .createSharedMemory _ _ | .createMessageQueue _ _ _ =>
    .done (if name.isEmpty then .error .invalidArgument else .ok ())
  | .destroyChannel _ => .done (channel.elim (.error .notFound) fun _ => .ok ())
  | .useChannel _ call =>
      .used (channel.elim (.error .notFound) fun channel => .ok (channel.exec call).1)
  | .exists _ => .found channel.isSome

theorem lookup_createChannel (m : IpcManager) (name' : String) (channel : IpcChannel)
    (name : String) :
    (m.createChannel name' channel).2.channels.lookup name =
      (created name' channel name).apply IpcChannel.machine (m.channels.lookup name) := by
  by_cases hempty : name'.isEmpty = true
  · rw [created, if_pos hempty, createChannel, if_pos hempty]
    rfl
  · have hchannels : (m.createChannel name' channel).2.channels =
        if name' ∈ m.channels then m.channels else m.channels.insert name' channel := by
      rw [createChannel, if_neg hempty]
      split_ifs <;> rfl
    rw [created, if_neg hempty, hchannels]
    exact Directory.lookup_create _ _ _ _ _

theorem lookup_destroyChannel (m : IpcManager) (name' name : String) :
    (m.destroyChannel name').2.channels.lookup name =
      (effect name (.destroyChannel name')).apply IpcChannel.machine (m.channels.lookup name) := by
  have hchannels : (m.destroyChannel name').2.channels = m.channels.erase name' := by
    unfold destroyChannel
    by_cases hmem : name' ∈ m.channels
    · rw [if_neg (not_not.mpr hmem)]
    · rw [if_pos hmem]
      exact (AList.ext (List.kerase_of_notMem_keys hmem)).symm
  rw [hchannels]
  exact Directory.lookup_destroy _ _ _ _

theorem lookup_useChannel (m : IpcManager) (name' : String) (op : IpcChannel.Op) (name : String) :
    (m.useChannel name' op).2.channels.lookup name =
      (effect name (.useChannel name' op)).apply IpcChannel.machine (m.channels.lookup name) := by
  have hchannels : (m.useChannel name' op).2.channels = (m.channels.lookup name').elim m.channels
      fun channel => m.channels.insert name' (IpcChannel.machine.next channel op) := by
    unfold useChannel getChannel
    cases m.channels.lookup name' <;> rfl
  rw [hchannels]
  exact Directory.lookup_call _ _ _ _ _

theorem createChannel_result (m : IpcManager) (name : String) (channel : IpcChannel) :
    (m.createChannel name channel).1 =
      if name.isEmpty then .error .invalidArgument else .ok () := by
  unfold createChannel
  split_ifs <;> rfl

theorem destroyChannel_result (m : IpcManager) (name : String) :
    (m.destroyChannel name).1 =
      (m.channels.lookup name).elim (.error .notFound) fun _ => .ok () := by
  unfold destroyChannel
  cases hlookup : m.channels.lookup name with
  | none => rw [if_pos (AList.lookup_eq_none.mp hlookup), Option.elim_none]
  | some channel =>
    have hmem : name ∈ m.channels := AList.lookup_isSome.mp (by simp [hlookup])
    rw [if_neg (not_not.mpr hmem), Option.elim_some]

theorem useChannel_result (m : IpcManager) (name : String) (op : IpcChannel.Op) :
    (m.useChannel name op).1 =
      (m.channels.lookup name).elim (.error .notFound) fun channel => .ok (channel.exec op).1 := by
  unfold useChannel getChannel
  cases m.channels.lookup name <;> rfl

theorem reply_of_concerns (m : IpcManager) {op : Op} {name : String} (h : nameOf op = name) :
    machine.out m op = reply name op (m.channels.lookup name) := by
  subst h
  cases op with
  | createPipe name capacity => exact congrArg Response.done (createChannel_result m name _)
  | createSharedMemory name bytes => exact congrArg Response.done (createChannel_result m name _)
  | createMessageQueue name maxMessages priorityMode =>
    exact congrArg Response.done (createChannel_result m name _)
  | destroyChannel name => exact congrArg Response.done (destroyChannel_result m name)
  | useChannel name op => exact congrArg Response.used (useChannel_result m name op)
  | «exists» name =>
    refine congrArg Response.found ?_
    rw [IpcManager.exists, Bool.eq_iff_iff, decide_eq_true_iff]
    exact AList.lookup_isSome.symm

theorem created_of_ne {name' name : String} (channel : IpcChannel) (h : name' ≠ name) :
    created name' channel name = .keep := by
  rw [created, if_neg h, ite_self]

theorem effect_of_ne {op : Op} {name : String} (h : nameOf op ≠ name) : effect name op = .keep := by
  cases op with
  | createPipe | createSharedMemory | createMessageQueue =>
    exact created_of_ne _ h
  | destroyChannel | useChannel => exact if_neg h
  | «exists» => rfl

theorem keeps : Keeps machine IpcChannel.machine (fun m name => m.channels.lookup name)
    effect concerns reply := by
  refine ⟨fun m op name => ?_, fun name op h => ?_, fun m op name h => ?_⟩
  · cases op with
    | createPipe name' capacity => exact lookup_createChannel m name' _ name
    | createSharedMemory name' bytes => exact lookup_createChannel m name' _ name
    | createMessageQueue name' maxMessages priorityMode => exact lookup_createChannel m name' _ name
    | destroyChannel name' => exact lookup_destroyChannel m name' name
    | useChannel name' op => exact lookup_useChannel m name' op name
    | «exists» name' => rfl
  · exact effect_of_ne (by simpa [concerns] using h)
  · exact reply_of_concerns m (by simpa [concerns] using h)

/-- Two runs that agree on the operations on a name agree on their answers and on the channel that
is there in the end, whatever else happens to other names. -/
theorem names_isolated (name : String) {ops ops' : List Op}
    (hsame : ops.filter (concerns name) = ops'.filter (concerns name)) :
    answers machine (concerns name) {} ops = answers machine (concerns name) {} ops' ∧
      (machine.run {} ops).getChannel name = (machine.run {} ops').getChannel name := by
  obtain ⟨hanswers, hlookup⟩ := keeps.isolated {} name hsame
  refine ⟨hanswers, ?_⟩
  unfold getChannel
  rw [hlookup]

def use? (name : String) : Op → Option IpcChannel.Op
  | .useChannel name' op => if name' = name then some op else none
  | _ => none

def usesOf (name : String) (ops : List Op) : List IpcChannel.Op := ops.filterMap (use? name)

theorem calls_map_effect (name : String) (ops : List Op) :
    Effect.calls (ops.map (effect name)) = usesOf name ops := by
  have hcall : ∀ op, Effect.call? (effect name op) = use? name op := by
    intro op
    cases op with
    | createPipe name' | createSharedMemory name' | createMessageQueue name' =>
      unfold effect created use?
      dsimp only [creates]
      split_ifs <;> rfl
    | destroyChannel name' =>
      unfold effect use?
      dsimp only [creates]
      split_ifs <;> rfl
    | useChannel name' op =>
      unfold effect use?
      dsimp only [creates]
      split_ifs <;> rfl
    | «exists» name' => rfl
  unfold Effect.calls usesOf
  rw [List.filterMap_map]
  exact List.filterMap_congr fun op _ => hcall op

theorem effect_eq_create {name : String} {op : Op} {channel : IpcChannel} :
    effect name op = .create channel ↔ creates op = some (name, channel) ∧ name ≠ "" := by
  cases op with
  | createPipe name' | createSharedMemory name' | createMessageQueue name' =>
    unfold effect created
    dsimp only [creates]
    split_ifs with hempty hname
    · have hname' : name' = "" := by simpa using hempty
      simp only [false_iff, Option.some.injEq, Prod.mk.injEq]
      rintro ⟨⟨rfl, -⟩, hne⟩
      exact hne hname'
    · subst hname
      have hne : name' ≠ "" := by simpa using hempty
      simp [hne]
    · simp [hname]
  | destroyChannel name' | useChannel name' =>
    unfold effect
    dsimp only [creates]
    split_ifs <;> simp
  | «exists» name' => simp [effect, creates]

theorem effect_eq_destroy {name : String} {op : Op} :
    effect name op = .destroy ↔ op = .destroyChannel name := by
  cases op with
  | createPipe name' | createSharedMemory name' | createMessageQueue name' =>
    unfold effect created
    dsimp only [creates]
    split_ifs <;> simp
  | destroyChannel name' | useChannel name' =>
    unfold effect
    dsimp only [creates]
    split_ifs with h <;> simp [h]
  | «exists» name' => simp [effect, creates]

/-- The channel that callers get under a name was created when the name was free and has not been
destroyed since, and it is in the state to which the uses under its name have brought it. Creations
under a name in use, of whatever kind, and all operations on other names have left no trace. -/
theorem channel_lifetime (name : String) (ops : List Op) (channel : IpcChannel) :
    (machine.run {} ops).getChannel name = .ok channel ↔
      ∃ before op first after, ops = before ++ op :: after ∧
        creates op = some (name, first) ∧ name ≠ "" ∧
        (machine.run {} before).exists name = false ∧ .destroyChannel name ∉ after ∧
        channel = IpcChannel.machine.run first (usesOf name after) := by
  have hget : (machine.run {} ops).getChannel name = .ok channel ↔
      (machine.run {} ops).channels.lookup name = some channel := by
    unfold getChannel
    cases (machine.run {} ops).channels.lookup name <;> simp
  have hexists : ∀ m : IpcManager, m.exists name = false ↔ m.channels.lookup name = none := by
    intro m
    rw [AList.lookup_eq_none]
    exact decide_eq_false_iff_not
  rw [hget, keeps.lifetime (AList.lookup_empty name)]
  constructor
  · rintro ⟨before, op, first, after, hops, hcreate, hbefore, hafter, hchannel⟩
    obtain ⟨hcreates, hname⟩ := effect_eq_create.mp hcreate
    refine ⟨before, op, first, after, hops, hcreates, hname, (hexists _).mpr hbefore, ?_, ?_⟩
    · exact fun hmem => hafter _ hmem (effect_eq_destroy.mpr rfl)
    · rw [hchannel, calls_map_effect]
  · rintro ⟨before, op, first, after, hops, hcreates, hname, hbefore, hafter, hchannel⟩
    refine ⟨before, op, first, after, hops, effect_eq_create.mpr ⟨hcreates, hname⟩,
      (hexists _).mp hbefore, ?_, ?_⟩
    · rintro op hop hdestroy
      rw [effect_eq_destroy.mp hdestroy] at hop
      exact hafter hop
    · rw [hchannel, calls_map_effect]

theorem names_isolated_pipe :
    let ops : List Op := [.createPipe "a" 4, .createPipe "b" 1, .useChannel "b" (.write [9]),
      .useChannel "a" (.write [1, 2]), .destroyChannel "b", .useChannel "a" (.read [0])]
    let ops' : List Op := [.createPipe "a" 4, .useChannel "a" (.write [1, 2]),
      .useChannel "a" (.read [0])]
    answers machine (concerns "a") {} ops = answers machine (concerns "a") {} ops' ∧
      (machine.run {} ops).getChannel "a" = .ok (.pipe ⟨4, true, [2]⟩) := by
  intro ops ops'
  have hsame : ops.filter (concerns "a") = ops'.filter (concerns "a") := by decide
  obtain ⟨hanswers, hchannel⟩ := names_isolated "a" hsame
  exact ⟨hanswers, hchannel.trans rfl⟩

end IpcManager
end Contur
