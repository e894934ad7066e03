import Mathlib.Data.List.Infix
import Mathlib.Order.Basic
import Zyndeck.System.Drive

namespace Zyndeck

open Data

/-! The receive loop of one service, down to the polls of its `select!`, and the signals that
ask it to stop. -/

inductive SignalKind where
  | interrupt
  | terminate
  deriving DecidableEq

inductive Branch where
  | shutdown
  | recv
  deriving DecidableEq

def Branch.order : Branch → List Branch
  | .shutdown => [.shutdown, .recv]
  | .recv => [.recv, .shutdown]

/-- `shutdown_signal` of one iteration.  A receiver remembers how many signals of its kind
there were when it was made. -/
inductive Waiter where
  | unpolled
  | interrupting (interrupts : Nat)
  | armed (interrupts terminates : Nat)
  deriving DecidableEq

namespace Waiter

def hears : Waiter → SignalKind → Bool
  | .unpolled, _ => false
  | .interrupting _, kind => decide (kind = .interrupt)
  | .armed _ _, _ => true

def unmade : Waiter → Nat
  | .interrupting _ => 1
  | _ => 0

def sees (delivered : SignalKind → Nat) : Waiter → Bool
  | .unpolled => false
  | .interrupting interrupts => decide (interrupts < delivered .interrupt)
  | .armed interrupts terminates =>
      decide (interrupts < delivered .interrupt) || decide (terminates < delivered .terminate)

end Waiter

/-- Where the loop stands: in `select!`, with the branches that this round still polls, in
`process`, or at its end. -/
inductive Control where
  | selecting (left : List Branch)
  | processing
  | exited
  | killed
  deriving DecidableEq

def Control.pollsRecv : Control → Bool
  | .selecting (.recv :: _) => true
  | _ => false

def Control.isSelecting : Control → Bool
  | .selecting _ => true
  | _ => false

def Control.isEnded : Control → Bool
  | .exited | .killed => true
  | _ => false

inductive Mark where
  | signalled (kind : SignalKind)
  /-- `recv` returned a job, whose pending run `process` is to claim. -/
  | took
  | exited
  /-- The default action of a signal, with a job in flight or without. -/
  | killed (inFlight : Bool)
  deriving DecidableEq

def Mark.isSignal : Mark → Bool
  | .signalled _ => true
  | _ => false

section

variable [Isolang]

/-- The process of a service in its receive loop.  Making a first receiver of a kind replaces
the default action of its signal, for good. -/
structure Daemon where
  system : System
  control : Control
  waiter : Waiter
  handled : SignalKind → Bool
  delivered : SignalKind → Nat
  log : List Mark

inductive Move where
  | signal (kind : SignalKind)
  | round (first : Branch)
  /-- Poll the next branch of the round. -/
  | poll
  | fault
  | work (answer : Answer)
  /-- A move of another party. -/
  | outside (event : Event)

def Move.isSelect : Move → Bool
  | .round _ | .poll => true
  | _ => false

def Event.isOf (service : Nat) : Event → Bool
  | .boot other | .sweep other | .next other | .receive other | .task other _ | .crash other =>
      decide (other = service)
  | _ => false

namespace Daemon

def stop (service : Nat) (control : Control) (marks : List Mark) (daemon : Daemon) : Daemon :=
  { daemon with
    system := daemon.system.setService service .down
    control
    log := daemon.log ++ marks }

/-- `shutdown_signal` makes its receivers one after the other, then waits for either. -/
def pollShutdown (service : Nat) (left : List Branch) (daemon : Daemon) : Daemon :=
  match daemon.waiter with
  | .unpolled =>
      { daemon with
        waiter := .interrupting (daemon.delivered .interrupt)
        handled := Function.update daemon.handled .interrupt true }
  | .interrupting interrupts =>
      { daemon with
        waiter := .armed interrupts (daemon.delivered .terminate)
        handled := Function.update daemon.handled .terminate true }
  | .armed _ _ =>
      if daemon.waiter.sees daemon.delivered then daemon.stop service .exited [.exited]
      else { daemon with control := .selecting left }

/-- A notification wins the `select!`, which drops the other branch. -/
def pollRecv (service : Nat) (left : List Branch) (daemon : Daemon) : Daemon :=
  match daemon.system.step? (.receive service) with
  | some system =>
      { daemon with
        system, control := .processing, waiter := .unpolled, log := daemon.log ++ [.took] }
  | none => { daemon with control := .selecting left }

def step? (service : Nat) (daemon : Daemon) : Move → Option Daemon
  | .signal kind =>
      if daemon.control.isEnded then none
      else if daemon.handled kind then
        some { daemon with
          delivered := Function.update daemon.delivered kind (daemon.delivered kind + 1)
          log := daemon.log ++ [.signalled kind] }
      else
        some (daemon.stop service .killed
          [.signalled kind, .killed (decide (daemon.control = .processing))])
  | .round first =>
      match daemon.control with
      | .selecting [] => some { daemon with control := .selecting first.order }
      | _ => none
  | .poll =>
      match daemon.control with
      | .selecting (.shutdown :: left) => some (daemon.pollShutdown service left)
      | .selecting (.recv :: left) => some (daemon.pollRecv service left)
      | _ => none
  | .fault =>
      match daemon.control with
      | .selecting (.recv :: _) => some (daemon.stop service .exited [.exited])
      | _ => none
  | .work answer =>
      match daemon.control with
      | .processing =>
          (daemon.system.step? (.task service answer)).map fun system =>
            { daemon with
              system
              control := if (system.task? service).isNone then .selecting [] else .processing }
      | _ => none
  | .outside event =>
      if event.isOf service then none
      else (daemon.system.step? event).map fun system => { daemon with system }

structure Entered (service : Nat) (daemon : Daemon) : Prop where
  loop : (daemon.system.services service).loop = .waiting
  task : daemon.system.task? service = none
  control : daemon.control = .selecting []
  waiter : daemon.waiter = .unpolled
  handled : ∀ kind, daemon.handled kind = false
  delivered : ∀ kind, daemon.delivered kind = 0
  log : daemon.log = []

inductive Stepped (service : Nat) (daemon : Daemon) : Move → Daemon → Prop
  | struck (live : daemon.control.isEnded = false) (unhandled : daemon.handled kind = false) :
      Stepped service daemon (.signal kind) (daemon.stop service .killed
        [.signalled kind, .killed (decide (daemon.control = .processing))])
  | noted (live : daemon.control.isEnded = false) (handled : daemon.handled kind = true) :
      Stepped service daemon (.signal kind)
        { daemon with
          delivered := Function.update daemon.delivered kind (daemon.delivered kind + 1)
          log := daemon.log ++ [.signalled kind] }
  | began (control_eq : daemon.control = .selecting []) :
      Stepped service daemon (.round first) { daemon with control := .selecting first.order }
  | installed (control_eq : daemon.control = .selecting (.shutdown :: left))
      (waiter_eq : daemon.waiter = .unpolled) :
      Stepped service daemon .poll
        { daemon with
          waiter := .interrupting (daemon.delivered .interrupt)
          handled := Function.update daemon.handled .interrupt true }
  | armed (control_eq : daemon.control = .selecting (.shutdown :: left))
      (waiter_eq : daemon.waiter = .interrupting interrupts) :
      Stepped service daemon .poll
        { daemon with
          waiter := .armed interrupts (daemon.delivered .terminate)
          handled := Function.update daemon.handled .terminate true }
  | exited (control_eq : daemon.control = .selecting (.shutdown :: left))
      (sees : daemon.waiter.sees daemon.delivered = true) :
      Stepped service daemon .poll (daemon.stop service .exited [.exited])
  | unsignalled (control_eq : daemon.control = .selecting (.shutdown :: left))
      (waiter_eq : daemon.waiter = .armed interrupts terminates)
      (unseen : daemon.waiter.sees daemon.delivered = false) :
      Stepped service daemon .poll { daemon with control := .selecting left }
  | took (control_eq : daemon.control = .selecting (.recv :: left))
      (received : daemon.system.step? (.receive service) = some reached) :
      Stepped service daemon .poll
        { daemon with
          system := reached, control := .processing, waiter := .unpolled
          log := daemon.log ++ [.took] }
  | unannounced (control_eq : daemon.control = .selecting (.recv :: left))
      (none : daemon.system.step? (.receive service) = none) :
      Stepped service daemon .poll { daemon with control := .selecting left }
  | broke (control_eq : daemon.control = .selecting (.recv :: left)) :
      Stepped service daemon .fault (daemon.stop service .exited [.exited])
  | worked (control_eq : daemon.control = .processing)
      (taken : daemon.system.step? (.task service answer) = some reached)
      (goesOn : turned = .selecting [] ∨ turned = .processing) :
      Stepped service daemon (.work answer)
        { daemon with system := reached, control := turned }
  | outside (taken : daemon.system.step? event = some reached) :
      Stepped service daemon (.outside event) { daemon with system := reached }

theorem step?_cases {service : Nat} {daemon next : Daemon} {move : Move}
    (taken : daemon.step? service move = some next) : Stepped service daemon move next := by
  cases move with
  | signal kind =>
      simp only [step?] at taken
      split at taken
      · contradiction
      · have live : daemon.control.isEnded = false :=
          Bool.eq_false_iff.mpr ‹¬ daemon.control.isEnded = true›
        split at taken
        · obtain rfl := Option.some.inj taken
          exact .noted live ‹_›
        · obtain rfl := Option.some.inj taken
          exact .struck live (Bool.eq_false_iff.mpr ‹¬ daemon.handled kind = true›)
  | round first =>
      simp only [step?] at taken
      split at taken
      · obtain rfl := Option.some.inj taken
        exact .began ‹_›
      · contradiction
  | poll =>
      simp only [step?] at taken
      split at taken
      · rename_i left control_eq
        obtain rfl := Option.some.inj taken
        unfold pollShutdown
        split
        · exact .installed control_eq ‹_›
        · exact .armed control_eq ‹_›
        · split
          · exact .exited control_eq ‹_›
          · exact .unsignalled control_eq ‹_› (Bool.eq_false_iff.mpr ‹_›)
      · rename_i left control_eq
        obtain rfl := Option.some.inj taken
        unfold pollRecv
        split
        · exact .took control_eq ‹_›
        · exact .unannounced control_eq ‹_›
      · contradiction
  | fault =>
      simp only [step?] at taken
      split at taken
      · obtain rfl := Option.some.inj taken
        exact .broke ‹_›
      · contradiction
  | work answer =>
      simp only [step?] at taken
      split at taken
      · obtain ⟨system, stepped, rfl⟩ := Option.map_eq_some_iff.mp taken
        refine .worked ‹_› stepped ?_
        split
        · exact .inl rfl
        · exact .inr rfl
      · contradiction
  | outside event =>
      simp only [step?] at taken
      split at taken
      · contradiction
      · obtain ⟨system, stepped, rfl⟩ := Option.map_eq_some_iff.mp taken
        exact .outside stepped

theorem Stepped.system {service : Nat} {daemon next : Daemon} {move : Move}
    (stepped : Stepped service daemon move next) :
    ∃ events, Run (Steps System.step?) daemon.system events next.system := by
  cases stepped with
  | noted | began | installed | armed | unsignalled | unannounced => exact ⟨[], .nil⟩
  | struck | exited | broke => exact ⟨[.crash service], .single rfl⟩
  | took _ received => exact ⟨[.receive service], .single received⟩
  | worked _ taken | outside taken => exact ⟨[_], .single taken⟩

/-- The receive loop with its signals refines the system without them. -/
theorem refines {service : Nat} {start daemon : Daemon} {moves : List Move}
    (run : Run (Steps (step? service)) start moves daemon) :
    ∃ events, Run (Steps System.step?) start.system events daemon.system := by
  induction run with
  | nil => exact ⟨[], .nil⟩
  | snoc _ taken induction =>
      have ⟨_, before⟩ := induction
      have ⟨_, after⟩ := (step?_cases taken).system
      exact ⟨_, before.append after⟩

/-! What becomes of a signal. -/

def Signalled (daemon : Daemon) : Prop := daemon.log.any Mark.isSignal = true

def Heeds (log : List Mark) : Prop :=
  log.Pairwise fun earlier later =>
    earlier.isSignal = true → later ≠ .took ∧ later ≠ .killed true

omit [Isolang] in
theorem Heeds.append {log marks : List Mark} (heeds : Heeds log) (own : Heeds marks)
    (quiet : log.any Mark.isSignal = true → ∀ mark ∈ marks, mark ≠ .took ∧ mark ≠ .killed true) :
    Heeds (log ++ marks) := by
  unfold Heeds
  rw [List.pairwise_append]
  refine ⟨heeds, own, fun earlier member later added isSignal => ?_⟩
  exact quiet (List.any_eq_true.mpr ⟨earlier, member, isSignal⟩) later added

/-- A signal comes while the loop is in `select!`, when its receiver exists or its default
action is still in force; and once there was one, `recv` is not polled with a notification
waiting. -/
def Hears (service : Nat) (daemon : Daemon) : Move → Prop
  | .signal kind =>
      daemon.control.isSelecting = true ∧
        (daemon.waiter.hears kind = true ∨ daemon.handled kind = false)
  | .poll => daemon.Signalled → daemon.control.pollsRecv = true →
      (daemon.system.services service).queue = []
  | _ => True

instance (service : Nat) (daemon : Daemon) (move : Move) :
    Decidable (daemon.Hears service move) :=
  match move with
  | .signal _ => inferInstanceAs (Decidable (_ ∧ _))
  | .poll => inferInstanceAs (Decidable (_ = true → _ = true → _ = []))
  | .round _ | .fault | .work _ | .outside _ => .isTrue trivial

def Hearing (service : Nat) (daemon : Daemon) (move : Move) (next : Daemon) : Prop :=
  daemon.Hears service move ∧ daemon.step? service move = some next

/-- The receivers and the history of a process whose moves hear every signal. -/
structure Attends (daemon : Daemon) : Prop where
  order : ∀ left, daemon.control = .selecting left → ∃ first : Branch, left <:+ first.order
  handled : ∀ kind, daemon.waiter.hears kind = true → daemon.handled kind = true
  interrupting : ∀ interrupts, daemon.waiter = .interrupting interrupts →
    interrupts ≤ daemon.delivered .interrupt
  armed : ∀ interrupts terminates, daemon.waiter = .armed interrupts terminates →
    interrupts ≤ daemon.delivered .interrupt ∧ terminates ≤ daemon.delivered .terminate
  seen : daemon.Signalled → daemon.control.isEnded = true ∨
    daemon.control.isSelecting = true ∧ daemon.waiter.sees daemon.delivered = true
  heeds : Heeds daemon.log

theorem Attends.sees {daemon : Daemon} (attends : daemon.Attends)
    (signalled : daemon.Signalled) (live : daemon.control.isEnded = false) :
    daemon.control.isSelecting = true ∧ daemon.waiter.sees daemon.delivered = true := by
  rcases attends.seen signalled with ended | seen
  · rw [live] at ended
    contradiction
  · exact seen

theorem Attends.unsignalled_of_unseen {daemon : Daemon} (attends : daemon.Attends)
    {left : List Branch} (control_eq : daemon.control = .selecting left)
    (unseen : daemon.waiter.sees daemon.delivered = false) : ¬ daemon.Signalled :=
  fun signalled => by
    have sees := attends.sees signalled (by rw [control_eq]; rfl)
    rw [unseen] at sees
    exact absurd sees.2 Bool.noConfusion

theorem Attends.unsignalled_of_processing {daemon : Daemon} (attends : daemon.Attends)
    (processing : daemon.control = .processing) : ¬ daemon.Signalled :=
  fun signalled => by
    have sees := attends.sees signalled (by rw [processing]; rfl)
    rw [processing] at sees
    exact absurd sees.1 Bool.noConfusion

theorem Attends.sees_signal {daemon : Daemon} (attends : daemon.Attends) {kind : SignalKind}
    (hears : daemon.waiter.hears kind = true) :
    daemon.waiter.sees
      (Function.update daemon.delivered kind (daemon.delivered kind + 1)) = true := by
  cases waiter_eq : daemon.waiter with
  | unpolled =>
      rw [waiter_eq] at hears
      contradiction
  | interrupting interrupts =>
      have before := attends.interrupting _ waiter_eq
      rw [waiter_eq] at hears
      obtain rfl : kind = .interrupt := of_decide_eq_true hears
      simp [Waiter.sees]
      omega
  | armed interrupts terminates =>
      have before := attends.armed _ _ waiter_eq
      cases kind with
      | interrupt =>
          simp [Waiter.sees]
          omega
      | terminate =>
          simp [Waiter.sees]
          omega

theorem receive_none {system : System} {service : Nat}
    (empty : (system.services service).queue = []) : system.step? (.receive service) = none := by
  simp only [System.step?, empty]
  split
  · contradiction
  · rfl

theorem Hears.unsignalled {service : Nat} {daemon : Daemon} (hears : daemon.Hears service .poll)
    {left : List Branch} (control_eq : daemon.control = .selecting (.recv :: left))
    {reached : System} (received : daemon.system.step? (.receive service) = some reached) :
    ¬ daemon.Signalled := fun signalled => by
  rw [receive_none (hears signalled (by rw [control_eq]; rfl))] at received
  contradiction

theorem Stepped.order {service : Nat} {daemon next : Daemon} {move : Move}
    (stepped : Stepped service daemon move next) (attends : daemon.Attends) {left : List Branch}
    (selecting : next.control = .selecting left) : ∃ first : Branch, left <:+ first.order := by
  cases stepped with
  | noted | installed | armed | outside => exact attends.order _ selecting
  | @began first => exact ⟨first, Control.selecting.inj selecting ▸ List.suffix_refl _⟩
  | unsignalled control_eq | unannounced control_eq =>
      have ⟨first, suffix⟩ := attends.order _ control_eq
      obtain rfl := Control.selecting.inj selecting
      exact ⟨first, (List.suffix_cons _ _).trans suffix⟩
  | worked control_eq taken goesOn =>
      rcases goesOn with rfl | rfl
      · exact ⟨.recv, Control.selecting.inj selecting ▸ List.nil_suffix⟩
      · contradiction
  | struck | exited | took | broke => contradiction

theorem Stepped.handled {service : Nat} {daemon next : Daemon} {move : Move}
    (stepped : Stepped service daemon move next) (attends : daemon.Attends) {kind : SignalKind}
    (hears : next.waiter.hears kind = true) : next.handled kind = true := by
  cases stepped with
  | installed =>
      obtain rfl : kind = .interrupt := of_decide_eq_true hears
      simp
  | armed control_eq waiter_eq =>
      cases kind with
      | interrupt =>
          have known := attends.handled .interrupt (by rw [waiter_eq]; rfl)
          simpa using known
      | terminate => simp
  | took => contradiction
  | struck | noted | began | exited | unsignalled | unannounced | broke | worked | outside =>
      exact attends.handled kind hears

theorem Stepped.receivers {service : Nat} {daemon next : Daemon} {move : Move}
    (stepped : Stepped service daemon move next) (attends : daemon.Attends) :
    (∀ interrupts, next.waiter = .interrupting interrupts →
      interrupts ≤ next.delivered .interrupt) ∧
    ∀ interrupts terminates, next.waiter = .armed interrupts terminates →
      interrupts ≤ next.delivered .interrupt ∧ terminates ≤ next.delivered .terminate := by
  cases stepped with
  | @noted kind =>
      have grows : daemon.delivered ≤
          Function.update daemon.delivered kind (daemon.delivered kind + 1) :=
        le_update_self_iff.mpr (Nat.le_succ _)
      refine ⟨fun interrupts same => ?_, fun interrupts terminates same => ?_⟩
      · exact (attends.interrupting interrupts same).trans (grows _)
      · have ⟨first, second⟩ := attends.armed interrupts terminates same
        exact ⟨first.trans (grows _), second.trans (grows _)⟩
  | installed =>
      refine ⟨fun interrupts same => ?_, nofun⟩
      obtain rfl := Waiter.interrupting.inj same
      exact Nat.le_refl _
  | armed control_eq waiter_eq =>
      refine ⟨nofun, fun first second same => ?_⟩
      obtain ⟨rfl, rfl⟩ := Waiter.armed.inj same
      exact ⟨attends.interrupting _ waiter_eq, Nat.le_refl _⟩
  | took => exact ⟨nofun, nofun⟩
  | struck | began | exited | unsignalled | unannounced | broke | worked | outside =>
      exact ⟨attends.interrupting, attends.armed⟩

theorem Hears.receiver {service : Nat} {daemon : Daemon} {kind : SignalKind}
    (hears : daemon.Hears service (.signal kind)) (handled : daemon.handled kind = true) :
    daemon.waiter.hears kind = true := by
  rcases hears.2 with made | unhandled
  · exact made
  · rw [handled] at unhandled
    contradiction

theorem Stepped.seen {service : Nat} {daemon next : Daemon} {move : Move}
    (stepped : Stepped service daemon move next) (hears : daemon.Hears service move)
    (attends : daemon.Attends) (signalled : next.Signalled) :
    next.control.isEnded = true ∨
      next.control.isSelecting = true ∧ next.waiter.sees next.delivered = true := by
  cases stepped with
  | struck | exited | broke => exact .inl rfl
  | noted live handled => exact .inr ⟨hears.1, attends.sees_signal (hears.receiver handled)⟩
  | began control_eq | unannounced control_eq =>
      have sees := attends.sees signalled (by rw [control_eq]; rfl)
      exact .inr ⟨rfl, sees.2⟩
  | installed control_eq waiter_eq =>
      have unsignalled := attends.unsignalled_of_unseen control_eq (by rw [waiter_eq]; rfl)
      exact absurd signalled unsignalled
  | armed control_eq waiter_eq =>
      have sees := attends.sees signalled (by rw [control_eq]; rfl)
      rw [waiter_eq] at sees
      exact .inr ⟨sees.1, by simpa [Waiter.sees] using sees.2⟩
  | unsignalled control_eq waiter_eq unseen =>
      exact absurd signalled (attends.unsignalled_of_unseen control_eq unseen)
  | took control_eq received =>
      have signalled : daemon.Signalled := by simpa [Signalled, Mark.isSignal] using signalled
      exact absurd signalled (hears.unsignalled control_eq received)
  | worked control_eq =>
      exact absurd signalled (attends.unsignalled_of_processing control_eq)
  | outside => exact attends.seen signalled

theorem Stepped.heeds {service : Nat} {daemon next : Daemon} {move : Move}
    (stepped : Stepped service daemon move next) (hears : daemon.Hears service move)
    (attends : daemon.Attends) : Heeds next.log := by
  cases stepped with
  | struck =>
      have idle : daemon.control ≠ .processing := fun same => by
        have inSelect := hears.1
        rw [same] at inSelect
        contradiction
      refine attends.heeds.append ?_ ?_
      · simp [Heeds, idle]
      · simp [idle]
  | noted | exited | broke => exact attends.heeds.append (List.pairwise_singleton ..) (by simp)
  | took control_eq received =>
      have unsignalled := hears.unsignalled control_eq received
      exact attends.heeds.append (List.pairwise_singleton ..)
        fun signalled => absurd signalled unsignalled
  | began | installed | armed | unsignalled | unannounced | worked | outside =>
      exact attends.heeds

theorem Stepped.attends {service : Nat} {daemon next : Daemon} {move : Move}
    (stepped : Stepped service daemon move next) (hears : daemon.Hears service move)
    (attends : daemon.Attends) : next.Attends where
  order _ := stepped.order attends
  handled _ := stepped.handled attends
  interrupting := (stepped.receivers attends).1
  armed := (stepped.receivers attends).2
  seen := stepped.seen hears attends
  heeds := stepped.heeds hears attends

/-! The way to the end of a `select!`. -/

/-- The polls and rounds before the shutdown branch is found ready. -/
def roundsLeft : List Branch → Nat
  | [] => 3
  | .shutdown :: _ => 1
  | .recv :: left => roundsLeft left + 1

def patience (daemon : Daemon) : Nat :=
  match daemon.control with
  | .selecting left => roundsLeft left + daemon.waiter.unmade
  | _ => 0

/-- Once a signal was delivered, every poll and every round brings the end nearer. -/
theorem Stepped.patience_lt {service : Nat} {daemon next : Daemon} {move : Move}
    (stepped : Stepped service daemon move next) (hears : daemon.Hears service move)
    (attends : daemon.Attends) (signalled : daemon.Signalled)
    (inSelect : move.isSelect = true) : next.patience < daemon.patience := by
  cases stepped with
  | @began first control_eq =>
      have three : roundsLeft first.order < roundsLeft [] := by cases first <;> decide
      unfold patience
      rw [control_eq]
      exact Nat.add_lt_add_right three _
  | installed control_eq waiter_eq =>
      have unsignalled := attends.unsignalled_of_unseen control_eq (by rw [waiter_eq]; rfl)
      exact absurd signalled unsignalled
  | armed control_eq waiter_eq =>
      unfold patience
      rw [control_eq, waiter_eq]
      exact Nat.lt_succ_self _
  | exited control_eq =>
      unfold patience
      rw [control_eq]
      exact Nat.add_pos_left Nat.one_pos _
  | unsignalled control_eq waiter_eq unseen =>
      exact absurd signalled (attends.unsignalled_of_unseen control_eq unseen)
  | took control_eq received => exact absurd signalled (hears.unsignalled control_eq received)
  | unannounced control_eq =>
      unfold patience
      rw [control_eq]
      exact Nat.add_lt_add_right (Nat.lt_succ_self _) _
  | struck | noted | broke | worked | outside => contradiction

theorem Stepped.patience_le {service : Nat} {daemon next : Daemon} {move : Move}
    (stepped : Stepped service daemon move next) (attends : daemon.Attends)
    (signalled : daemon.Signalled) (elsewhere : move.isSelect = false) :
    next.patience ≤ daemon.patience := by
  cases stepped with
  | struck | broke => exact Nat.zero_le _
  | noted | outside => exact Nat.le_refl _
  | worked control_eq =>
      exact absurd signalled (attends.unsignalled_of_processing control_eq)
  | began | installed | armed | exited | unsignalled | took | unannounced => contradiction

theorem Stepped.signalled {service : Nat} {daemon next : Daemon} {move : Move}
    (stepped : Stepped service daemon move next) (signalled : daemon.Signalled) :
    next.Signalled := by
  unfold Signalled at signalled ⊢
  cases stepped with
  | struck | noted | exited | took | broke => simp [stop, signalled]
  | began | installed | armed | unsignalled | unannounced | worked | outside => exact signalled

theorem attends_of_run {service : Nat} {start daemon : Daemon} {moves : List Move}
    (run : Run (Hearing service) start moves daemon) (attends : start.Attends) :
    daemon.Attends :=
  run.invariant (fun _ _ _ attends step => (step?_cases step.2).attends step.1 attends) attends

theorem signalled_of_run {service : Nat} {start daemon : Daemon} {moves : List Move}
    (run : Run (Hearing service) start moves daemon) (signalled : start.Signalled) :
    daemon.Signalled :=
  run.invariant (fun _ _ _ signalled step => (step?_cases step.2).signalled signalled) signalled

theorem countP_select_le {service : Nat} {start daemon : Daemon} {moves : List Move}
    (run : Run (Hearing service) start moves daemon) (attends : start.Attends)
    (signalled : start.Signalled) :
    moves.countP Move.isSelect + daemon.patience ≤ start.patience := by
  induction run with
  | nil => simp
  | @snoc moves daemon move next before step induction =>
      have attends := attends_of_run before attends
      have signalled := signalled_of_run before signalled
      have stepped := step?_cases step.2
      rw [List.countP_append, List.countP_singleton]
      split
      · have falls := stepped.patience_lt step.1 attends signalled ‹_›
        omega
      · have falls := stepped.patience_le attends signalled (Bool.eq_false_iff.mpr ‹_›)
        omega

theorem Attends.patience_le {daemon : Daemon} (attends : daemon.Attends) :
    daemon.patience ≤ 5 := by
  have unmade : daemon.waiter.unmade ≤ 1 := by cases daemon.waiter <;> simp [Waiter.unmade]
  unfold patience
  split
  · rename_i left control_eq
    have ⟨first, suffix⟩ := attends.order left control_eq
    have inOrder : left ∈ first.order.tails := (List.mem_tails _ _).mpr suffix
    have rounds : ∀ rest ∈ first.order.tails, roundsLeft rest ≤ 4 := by
      cases first <;> decide
    have bounded := rounds left inOrder
    omega
  · exact Nat.zero_le _

theorem Entered.attends {service : Nat} {daemon : Daemon} (entered : daemon.Entered service) :
    daemon.Attends where
  order left same := ⟨.recv, by
    rw [entered.control] at same
    exact Control.selecting.inj same ▸ List.nil_suffix⟩
  handled kind made := by
    rw [entered.waiter] at made
    contradiction
  interrupting _ same := by
    rw [entered.waiter] at same
    contradiction
  armed _ _ same := by
    rw [entered.waiter] at same
    contradiction
  seen signalled := by simp [Signalled, entered.log] at signalled
  heeds := by simp [Heeds, entered.log]

/-- A signal that was delivered stops the process: no job is taken any more, none is cut
short, and the `select!` the process is in ends it. -/
structure Drains (service : Nat) (daemon : Daemon) : Prop where
  heeds : Heeds daemon.log
  idle : daemon.Signalled → daemon.control ≠ .processing
  goesOn : daemon.Signalled → daemon.control.isEnded = false →
    ∃ move : Move, move.isSelect = true ∧ (daemon.step? service move).isSome = true
  soon : daemon.Signalled → ∀ later last, Run (Hearing service) daemon later last →
    later.countP Move.isSelect ≤ 5

/-- A process whose moves hear every signal is stopped by the first one. -/
theorem signal_drains {service : Nat} {start daemon : Daemon} {moves : List Move}
    (entered : start.Entered service) (run : Run (Hearing service) start moves daemon) :
    daemon.Drains service where
  heeds := (attends_of_run run entered.attends).heeds
  idle signalled processing :=
    have attends := attends_of_run run entered.attends
    attends.unsignalled_of_processing processing signalled
  goesOn signalled live := by
    have attends := attends_of_run run entered.attends
    have ⟨inSelect, _⟩ := attends.sees signalled live
    cases control_eq : daemon.control with
    | selecting left =>
        cases left with
        | nil => exact ⟨.round .recv, rfl, by simp [step?, control_eq]⟩
        | cons branch left =>
            refine ⟨.poll, rfl, ?_⟩
            cases branch <;> simp [step?, control_eq]
    | processing | exited | killed =>
        rw [control_eq] at inSelect
        contradiction
  soon signalled later last after := by
    have attends := attends_of_run run entered.attends
    have counted := countP_select_le after attends signalled
    have bounded := attends.patience_le
    omega

end Daemon

end

section

attribute [local instance] english

namespace Daemon

def waiting : Daemon where
  system := System.after (fun _ _ => true) deployment [.boot 0, .sweep 0, .next 0]
  control := .selecting []
  waiter := .unpolled
  handled _ := false
  delivered _ := 0
  log := []

theorem waiting_entered : waiting.Entered 0 where
  loop := by decide +kernel
  task := rfl
  control := rfl
  waiter := rfl
  handled _ := rfl
  delivered _ := rfl
  log := rfl

def work (now : Nat) : Move := .work (.executed (tick now (.claim firstJob)).env [])

theorem signal_drains_suspended :
    let moves := [.round .shutdown, .poll, .poll, .poll, .poll, .signal .terminate]
    let daemon := lastState (permit? (Hears 0) (step? 0)) waiting moves
    daemon.log = [.signalled .terminate] ∧ daemon.Drains 0 :=
  ⟨by decide +kernel,
    signal_drains waiting_entered (run_lastState (by decide +kernel)).of_permitted⟩

/-- The shutdown branch is polled, the service takes the job of its first notification, and
`SIGTERM` comes while its run is in flight; then the next run of the job is enqueued. -/
def deaf : List Move :=
  [.outside (byOperator 1 (.start rulebook)), .round .shutdown, .poll, .poll, .poll, .poll,
    work 2, work 3, .signal .terminate, .work (.extracted (.ok ['x'])), work 4, work 5,
    .outside (byOperator 6 (.validate firstJob)), .round .shutdown, .poll, .poll, .poll, .poll,
    work 7]

/-- The signal is lost: the service takes the job again and claims its next run. -/
theorem signal_lost :
    let daemon := lastState (step? 0) waiting deaf
    waiting.Entered 0 ∧ Run (Steps (step? 0)) waiting deaf daemon ∧
      daemon.log = [.took, .signalled .terminate, .took] ∧ ¬ Heeds daemon.log ∧
      daemon.system.db.runs.map (·.status) = [.succeeded, .running] := by
  intro daemon
  have log_eq : daemon.log = [.took, .signalled .terminate, .took] := by decide +kernel
  refine ⟨waiting_entered, run_lastState (by decide +kernel), log_eq, ?_, by decide +kernel⟩
  rw [log_eq]
  simp [Heeds, Mark.isSignal]

end Daemon

end

end Zyndeck
