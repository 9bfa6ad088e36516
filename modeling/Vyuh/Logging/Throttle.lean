import Vyuh.Lib.FixedWindow
import Vyuh.Lib.Step

/-! The throttle of administrator mail (`logging/mail_admins.rs`). A mail is sent when each of several windows has
    room for it; then it is counted in all of them. -/

namespace Vyuh.Logging

open Lib

inductive LoggingError
  | mailAdminsThrottleCount (count : ℕ)
  | mailAdminsThrottle (limit : UInt32) (millis : ℕ)
  | mailAdminsDuplicateThrottle (millis : ℕ)
  deriving DecidableEq

structure MailThrottle where
  limit : UInt32
  windowMillis : ℕ
  deriving DecidableEq

def maxThrottles : ℕ := 8

def maxThrottleMillis : ℕ := 86400000

def maxThrottleLimit : UInt32 := 100000

namespace MailThrottle

def perMinute (limit : UInt32) : MailThrottle := ⟨limit, 60 * 1000⟩

def perHour (limit : UInt32) : MailThrottle := ⟨limit, 3600 * 1000⟩

/-- In nanoseconds, as instants are. -/
def window (throttle : MailThrottle) : ℕ := throttle.windowMillis * 1000000

def validate (throttle : MailThrottle) : Except LoggingError Unit :=
  if throttle.limit = 0 ∨ maxThrottleLimit < throttle.limit then
    .error (.mailAdminsThrottle throttle.limit throttle.windowMillis)
  else if throttle.windowMillis = 0 ∨ maxThrottleMillis < throttle.windowMillis then
    .error (.mailAdminsThrottle throttle.limit throttle.windowMillis)
  else .ok ()

end MailThrottle

/-- The loop of `MailAdmins::validate` over the throttles, with those before. -/
def validateEach (existing : List MailThrottle) : List MailThrottle → Except LoggingError Unit
  | [] => .ok ()
  | throttle :: throttles => do
    throttle.validate
    if existing.any (·.windowMillis = throttle.windowMillis) then
      .error (.mailAdminsDuplicateThrottle throttle.windowMillis)
    else validateEach (existing ++ [throttle]) throttles

/-- What `MailAdmins::validate` checks of the throttles. -/
def validateThrottles (throttles : List MailThrottle) : Except LoggingError Unit :=
  if maxThrottles < throttles.length then .error (.mailAdminsThrottleCount throttles.length)
  else validateEach [] throttles

def defaultThrottles : List MailThrottle := [.perMinute 12, .perHour 100]

/-! ### Windows -/

structure ThrottleWindow where
  throttle : MailThrottle
  openedAt : ℕ
  delivered : ℕ
  deriving DecidableEq

namespace ThrottleWindow

def new (now : ℕ) (throttle : MailThrottle) : ThrottleWindow := ⟨throttle, now, 0⟩

def refresh (now : ℕ) (window : ThrottleWindow) : ThrottleWindow :=
  if window.throttle.window ≤ now - window.openedAt then { window with openedAt := now, delivered := 0 } else window

def exhausted (window : ThrottleWindow) : Bool := window.throttle.limit.toNat ≤ window.delivered

/-- `u32::saturating_add`. -/
def consume (window : ThrottleWindow) : ThrottleWindow :=
  { window with delivered := min (window.delivered + 1) (2 ^ 32 - 1) }

end ThrottleWindow

structure DeliveryThrottles where
  windows : List ThrottleWindow
  suppressed : ℕ
  deriving DecidableEq

namespace DeliveryThrottles

/-- Each window reads the clock for itself. -/
def new (throttles : List (MailThrottle × ℕ)) : DeliveryThrottles :=
  ⟨throttles.map fun (throttle, now) => .new now throttle, 0⟩

def allow (throttles : DeliveryThrottles) (now : ℕ) : Bool × DeliveryThrottles :=
  let windows := throttles.windows.map (.refresh now)
  if windows.any ThrottleWindow.exhausted then (false, ⟨windows, min (throttles.suppressed + 1) (2 ^ 64 - 1)⟩)
  else (true, ⟨windows.map .consume, 0⟩)

/-- Calls of `allow` one after the other, and what they give. -/
def calls (throttles : DeliveryThrottles) : List ℕ → List Request
  | [] => []
  | now :: times => ⟨now, (throttles.allow now).1⟩ :: (throttles.allow now).2.calls times

end DeliveryThrottles

/-! ### Each window by itself -/

theorem MailThrottle.window_pos {throttle : MailThrottle} (h : throttle.validate = .ok ()) : 0 < throttle.window := by
  obtain ⟨-, h⟩ := Step.except_check_ok.mp h
  obtain ⟨hwindow, -⟩ := Step.except_check_ok.mp h
  rw [MailThrottle.window]
  omega

theorem window_pos_of_validateEach {existing throttles : List MailThrottle}
    (h : validateEach existing throttles = .ok ()) : ∀ throttle ∈ throttles, 0 < throttle.window := by
  induction throttles generalizing existing with
  | nil => exact nofun
  | cons throttle throttles ih =>
    obtain ⟨_, hvalid, h⟩ := Step.except_bind_ok.mp h
    obtain ⟨-, h⟩ := Step.except_check_ok.mp h
    exact List.forall_mem_cons.mpr ⟨MailThrottle.window_pos hvalid, ih h⟩

/-- No configured window is empty. -/
theorem window_pos_of_validateThrottles {throttles : List MailThrottle} (h : validateThrottles throttles = .ok ()) :
    ∀ throttle ∈ throttles, 0 < throttle.window :=
  window_pos_of_validateEach (Step.except_check_ok.mp h).2

theorem defaultThrottles_valid : validateThrottles defaultThrottles = .ok () := by decide

namespace ThrottleWindow

variable {window : ThrottleWindow} {now : ℕ}

/-- The window as a counter. -/
def fixed (window : ThrottleWindow) (hwindow : 0 < window.throttle.window) : FixedWindow :=
  ⟨window.throttle.window, window.throttle.limit.toNat, hwindow⟩

def used (window : ThrottleWindow) : Used := ⟨window.openedAt, window.delivered⟩

theorem used_count (window : ThrottleWindow) : window.used.count = window.delivered := rfl

theorem refresh_throttle (now : ℕ) (window : ThrottleWindow) : (window.refresh now).throttle = window.throttle := by
  rw [refresh]
  split <;> rfl

theorem refresh_used (hwindow : 0 < window.throttle.window) :
    (window.refresh now).used = (window.fixed hwindow).refresh now window.used := by
  rw [refresh]
  split
  next hpassed => exact (@FixedWindow.refresh_of_le (window.fixed hwindow) window.used now hpassed).symm
  next hopen =>
    exact (@FixedWindow.refresh_of_lt (window.fixed hwindow) window.used now (not_le.mp hopen)).symm

theorem consume_throttle (window : ThrottleWindow) : window.consume.throttle = window.throttle := rfl

/-- A count below the limit does not saturate. -/
theorem consume_used (hroom : window.delivered < window.throttle.limit.toNat) :
    window.consume.used = FixedWindow.charge true window.used := by
  have hlimit := window.throttle.limit.toNat_lt
  have hcount : min (window.delivered + 1) (2 ^ 32 - 1) = window.delivered + 1 := by omega
  rw [used, consume, FixedWindow.charge, if_pos rfl, hcount]
  rfl

end ThrottleWindow

namespace DeliveryThrottles

variable {throttles : DeliveryThrottles} {window : ThrottleWindow} {now : ℕ}

/-- A call is denied, and only refreshes the windows; or each of them has room, and is charged. -/
theorem allow_cases (throttles : DeliveryThrottles) (now : ℕ) :
    ((throttles.allow now).1 = false ∧ (throttles.allow now).2.windows = throttles.windows.map (.refresh now)) ∨
      (throttles.allow now).1 = true ∧
        (throttles.allow now).2.windows = (throttles.windows.map (.refresh now)).map .consume ∧
        ∀ window ∈ throttles.windows, (window.refresh now).delivered < window.throttle.limit.toNat := by
  rw [allow]
  by_cases hany : (throttles.windows.map (.refresh now)).any ThrottleWindow.exhausted = true
  · rw [if_pos hany]
    exact .inl ⟨rfl, rfl⟩
  · rw [if_neg hany]
    refine .inr ⟨rfl, rfl, fun window hmem => ?_⟩
    by_contra hfull
    refine hany (List.any_eq_true.mpr ⟨_, List.mem_map_of_mem hmem, decide_eq_true ?_⟩)
    rw [ThrottleWindow.refresh_throttle]
    exact not_lt.mp hfull

/-- After a call a window is refreshed, and charged when the call is allowed. -/
theorem allow_window (hmem : window ∈ throttles.windows) (hwindow : 0 < window.throttle.window) (now : ℕ) :
    ∃ next ∈ (throttles.allow now).2.windows, next.throttle = window.throttle ∧
      next.used = FixedWindow.charge (throttles.allow now).1 ((window.fixed hwindow).refresh now window.used) ∧
      ((throttles.allow now).1 = true →
        ((window.fixed hwindow).refresh now window.used).count < window.throttle.limit.toNat) := by
  have hthrottle := ThrottleWindow.refresh_throttle now window
  rw [← ThrottleWindow.refresh_used hwindow]
  rcases allow_cases throttles now with ⟨hdenied, hnext⟩ | ⟨hallowed, hnext, hroom⟩
  · rw [hnext, hdenied]
    exact ⟨_, List.mem_map_of_mem hmem, hthrottle, rfl, nofun⟩
  · have hless := hroom window hmem
    have hconsumed : (window.refresh now).consume.used = FixedWindow.charge true (window.refresh now).used :=
      ThrottleWindow.consume_used (by rwa [hthrottle])
    rw [hnext, hallowed]
    exact ⟨_, List.mem_map_of_mem (List.mem_map_of_mem hmem), (ThrottleWindow.consume_throttle _).trans hthrottle,
      hconsumed, fun _ => by rwa [ThrottleWindow.used_count]⟩

/-- Each window takes its part in the calls as a counter by itself. -/
theorem admits_calls (times : List ℕ) (hmem : window ∈ throttles.windows) (hwindow : 0 < window.throttle.window) :
    (window.fixed hwindow).Admits window.used (throttles.calls times) := by
  induction times generalizing throttles window with
  | nil => exact .nil _
  | cons now times ih =>
    obtain ⟨next, hnext, hthrottle, hused, hroom⟩ := allow_window hmem hwindow now
    have hrest := ih hnext (by rwa [hthrottle])
    have hfixed : next.fixed (by rwa [hthrottle]) = window.fixed hwindow := by
      simp only [ThrottleWindow.fixed, hthrottle]
    rw [hused, hfixed] at hrest
    exact .cons hroom hrest

theorem map_at_calls (throttles : DeliveryThrottles) (times : List ℕ) : (throttles.calls times).map Request.at_ = times := by
  induction times generalizing throttles with
  | nil => rfl
  | cons now times ih => rw [calls, List.map_cons, ih]

theorem ordered_calls {times : List ℕ} (h : times.Pairwise (· ≤ ·)) : FixedWindow.Ordered (throttles.calls times) := by
  rw [← map_at_calls throttles times] at h
  exact List.pairwise_map.mp h

end DeliveryThrottles

/-- The limits of one throttle. -/
theorem DeliveryThrottles.limits_hold {throttles : List (MailThrottle × ℕ)} {times : List ℕ} {throttle : MailThrottle × ℕ}
    (hmem : throttle ∈ throttles) (hwindow : 0 < throttle.1.window) (htimes : times.Pairwise (· ≤ ·)) :
    (∀ opening ∈ FixedWindow.openings throttle.1.window throttle.2 ((DeliveryThrottles.new throttles).calls times),
      FixedWindow.takenAt ((DeliveryThrottles.new throttles).calls times)
        (fun at_ => opening ≤ at_ && at_ < opening + throttle.1.window) ≤ throttle.1.limit.toNat) ∧
    ∀ start, FixedWindow.takenAt ((DeliveryThrottles.new throttles).calls times)
      (fun at_ => start ≤ at_ && at_ ≤ start + throttle.1.window) ≤ 2 * throttle.1.limit.toNat := by
  have hnew : ThrottleWindow.new throttle.2 throttle.1 ∈ (DeliveryThrottles.new throttles).windows :=
    List.mem_map_of_mem (f := fun throttle : MailThrottle × ℕ => ThrottleWindow.new throttle.2 throttle.1) hmem
  have hadmits := DeliveryThrottles.admits_calls times hnew hwindow
  have hordered := @DeliveryThrottles.ordered_calls (.new throttles) times htimes
  exact ⟨fun opening hopening => hadmits.taken_in_window hordered (Nat.zero_le _) hopening,
    fun start => hadmits.taken_in_interval hordered (Nat.zero_le _) start⟩

/-- The throttles of an accepted configuration hold their limits, whenever its windows were opened. -/
theorem accepted_throttles_hold {throttles : List (MailThrottle × ℕ)} {times : List ℕ}
    (hvalid : validateThrottles (throttles.map (·.1)) = .ok ()) (htimes : times.Pairwise (· ≤ ·)) :
    ∀ throttle ∈ throttles, ∀ start, FixedWindow.takenAt ((DeliveryThrottles.new throttles).calls times)
      (fun at_ => start ≤ at_ && at_ ≤ start + throttle.1.window) ≤ 2 * throttle.1.limit.toNat :=
  fun _ hmem => (DeliveryThrottles.limits_hold hmem
    (window_pos_of_validateThrottles hvalid _ (List.mem_map_of_mem hmem)) htimes).2

/-- Each window's limit holds in each fixed window, and twice the limit in any interval of the window's length; a call
    that is denied is counted nowhere. -/
theorem calls_within_limits {throttles : List (MailThrottle × ℕ)} {times : List ℕ}
    (hwindow : ∀ throttle ∈ throttles, 0 < throttle.1.window) (htimes : times.Pairwise (· ≤ ·)) :
    (∀ throttle ∈ throttles,
      (∀ opening ∈ FixedWindow.openings throttle.1.window throttle.2 ((DeliveryThrottles.new throttles).calls times),
        FixedWindow.takenAt ((DeliveryThrottles.new throttles).calls times)
          (fun at_ => opening ≤ at_ && at_ < opening + throttle.1.window) ≤ throttle.1.limit.toNat) ∧
      ∀ start, FixedWindow.takenAt ((DeliveryThrottles.new throttles).calls times)
        (fun at_ => start ≤ at_ && at_ ≤ start + throttle.1.window) ≤ 2 * throttle.1.limit.toNat) ∧
    ∀ (state : DeliveryThrottles) (now : ℕ), (state.allow now).1 = false →
      (state.allow now).2.windows = state.windows.map (.refresh now) := by
  refine ⟨fun throttle hmem => DeliveryThrottles.limits_hold hmem (hwindow throttle hmem) htimes,
    fun state now hdenied => ?_⟩
  rcases DeliveryThrottles.allow_cases state now with ⟨-, hnext⟩ | ⟨hallowed, -⟩
  · exact hnext
  · rw [hdenied] at hallowed
    cases hallowed

/-- The default throttles are accepted; here they are called each half minute. -/
theorem default_calls_within_limits :
    validateThrottles defaultThrottles = .ok () ∧
    FixedWindow.takenAt ((DeliveryThrottles.new (defaultThrottles.map (·, 0))).calls [0, 30000000000, 60000000000])
      (fun at_ => 0 ≤ at_ && at_ ≤ 0 + (MailThrottle.perMinute 12).window) ≤ 2 * (MailThrottle.perMinute 12).limit.toNat := by
  have hwindow : ∀ throttle ∈ defaultThrottles.map (·, 0), 0 < throttle.1.window := by
    intro throttle hmem
    obtain ⟨conf, hconf, rfl⟩ := List.mem_map.mp hmem
    exact window_pos_of_validateThrottles defaultThrottles_valid conf hconf
  exact ⟨defaultThrottles_valid, ((calls_within_limits hwindow (by decide)).1 _ (.head _)).2 0⟩

end Vyuh.Logging
