import Kfs.Keyboard

/-!
# The shift keys

Two keys set and clear the one `SHIFT`.  The scancodes say which of the two is held, and a
character key should then be decoded with the table that this selects.

* `pollsShift_eq_true_iff`: `SHIFT` is set if a shift key was pressed and none was released since.
* `shift_follows_keys_iff`: the keys are decoded right if none that shift changes is struck when one
  shift key is held and the other was released after the last press.
-/

namespace Kfs.Keyboard

/-! ## The keys that are held -/

inductive ShiftKey where
  | left
  | right
  deriving DecidableEq, Repr

namespace ShiftKey

/-- The make code. -/
def press : ShiftKey → U8
  | left => 0x2A
  | right => 0x36

/-- The break code. -/
def release : ShiftKey → U8
  | left => 0xAA
  | right => 0xB6

/-- Whether the key is down after a scancode. -/
def next (key : ShiftKey) (down : Bool) (code : U8) : Bool :=
  if code = key.press then true else if code = key.release then false else down

def held (key : ShiftKey) (codes : List U8) : Bool := codes.foldl key.next false

/-- The key goes down when it is up and up when it is down. -/
def alternates (key : ShiftKey) : Bool → List U8 → Bool
  | _, [] => true
  | down, code :: codes =>
    (if code = key.press then !down else if code = key.release then down else true) &&
      alternates key (key.next down code) codes

end ShiftKey

def shiftHeld (codes : List U8) : Bool := ShiftKey.left.held codes || ShiftKey.right.held codes

/-- A shift key was pressed and none was released since. -/
def PressedLast (codes : List U8) : Prop :=
  ∃ before key after, codes = before ++ ShiftKey.press key :: after ∧
    ∀ other : ShiftKey, other.release ∉ after

/-- The entry of a key in one of the tables. -/
def entry (upper : Bool) (code : U8) : U8 :=
  (if upper = true then UPPER else LOWER).getD code.toNat 0

/-- The scancodes that the polls read. -/
def scancodes (ports : List (U8 × U8)) : List U8 :=
  (ports.filter fun port => port.1 &&& 1 ≠ 0).map Prod.snd

/-- The poll after `before` reads the make code of a character key. -/
def Struck (ports before : List (U8 × U8)) (code : U8) : Prop :=
  entry false code ≠ 0 ∧
    ∃ status after, status &&& 1 ≠ 0 ∧ ports = before ++ (status, code) :: after

/-- Every character key is decoded with `UPPER` if a shift key is held at that moment, and else with
`LOWER`. -/
def FollowsKeys (ports : List (U8 × U8)) : Prop :=
  ∀ before code, Struck ports before code →
    (polls false ports)[before.length]? =
      some (some (.char (entry (shiftHeld (scancodes before)) code)))

/-! ## One poll -/

theorem poll_of_ready {status : U8} (hready : status &&& 1 ≠ 0) (shift : Bool) (code : U8) :
    poll shift status code = poll shift 1 code := by
  have hone : ¬(1 : U8) &&& 1 = 0 := by decide
  rw [poll, poll, if_neg hready, if_neg hone]

/-- What a scancode does to `SHIFT`. -/
def shiftNext (shift : Bool) (code : U8) : Bool :=
  if code = 0x2A ∨ code = 0x36 then true else if code = 0xAA ∨ code = 0xB6 then false else shift

theorem poll_shift (shift : Bool) (status code : U8) :
    (poll shift status code).2 = if status &&& 1 ≠ 0 then shiftNext shift code else shift := by
  by_cases hready : status &&& 1 = 0
  · rw [poll, if_pos hready, if_neg (not_not_intro hready)]
  · rw [poll, if_neg hready, if_pos hready, shiftNext]
    split
    · rfl
    split
    · rfl
    split
    · rfl
    split
    · rfl
    split
    · rfl
    -- only the lookup in the table is left
    dsimp only
    split
    · split <;> rfl
    · rfl

theorem poll_charKey {status code : U8} (hready : status &&& 1 ≠ 0) (hchar : entry false code ≠ 0)
    (shift : Bool) : (poll shift status code).1 = some (.char (entry shift code)) := by
  have htable : ∀ (i : Fin 58) (shift : Bool), entry false (BitVec.ofNat 8 i) ≠ 0 →
      (poll shift 1 (BitVec.ofNat 8 i)).1 = some (.char (entry shift (BitVec.ofNat 8 i))) := by
    decide
  have hlt : code.toNat < 58 := by
    by_contra hge
    exact hchar (List.getD_eq_default _ _ (Nat.not_lt.mp hge))
  have hcode : BitVec.ofNat 8 code.toNat = code := by simp
  have hpoll := htable ⟨code.toNat, hlt⟩ shift
  rw [hcode] at hpoll
  rw [poll_of_ready hready]
  exact hpoll hchar

/-! ## The polls -/

theorem scancodes_cons (port : U8 × U8) (ports : List (U8 × U8)) :
    scancodes (port :: ports) =
      if port.1 &&& 1 ≠ 0 then port.2 :: scancodes ports else scancodes ports := by
  unfold scancodes
  rw [List.filter_cons]
  by_cases hready : port.1 &&& 1 ≠ 0
  · rw [if_pos hready, if_pos (decide_eq_true hready), List.map_cons]
  · rw [if_neg hready, if_neg (Bool.not_eq_true _ ▸ decide_eq_false hready)]

/-- `SHIFT` after the polls. -/
def pollsShift (shift : Bool) (ports : List (U8 × U8)) : Bool :=
  (scancodes ports).foldl shiftNext shift

theorem polls_append (before after : List (U8 × U8)) : ∀ shift : Bool,
    polls shift (before ++ after) =
      polls shift before ++ polls (pollsShift shift before) after := by
  induction before with
  | nil =>
    intro shift
    rfl
  | cons port ports ih =>
    intro shift
    have hnext : pollsShift shift (port :: ports) =
        pollsShift (poll shift port.1 port.2).2 ports := by
      unfold pollsShift
      rw [poll_shift, scancodes_cons]
      split <;> rfl
    rw [hnext, List.cons_append]
    exact congrArg (List.cons (poll shift port.1 port.2).1) (ih _)

theorem length_polls (ports : List (U8 × U8)) : ∀ shift : Bool,
    (polls shift ports).length = ports.length := by
  induction ports with
  | nil =>
    intro shift
    rfl
  | cons port ports ih =>
    intro shift
    exact congrArg (· + 1) (ih _)

theorem polls_charKey {ports before : List (U8 × U8)} {code : U8} (h : Struck ports before code) :
    (polls false ports)[before.length]? =
      some (some (.char (entry (pollsShift false before) code))) := by
  obtain ⟨hchar, status, after, hready, rfl⟩ := h
  rw [polls_append, List.getElem?_append_right (by rw [length_polls]), length_polls, Nat.sub_self]
  exact congrArg some (poll_charKey hready hchar _)

/-! ## `SHIFT` and the keys -/

theorem shiftNext_press (shift : Bool) (key : ShiftKey) : shiftNext shift key.press = true := by
  cases key <;> rfl

theorem shiftNext_release (shift : Bool) (key : ShiftKey) :
    shiftNext shift key.release = false := by
  cases key <;> rfl

theorem shiftNext_other (shift : Bool) {code : U8} (hpress : ∀ key : ShiftKey, code ≠ key.press)
    (hrelease : ∀ key : ShiftKey, code ≠ key.release) : shiftNext shift code = shift := by
  have hmake : ¬(code = 0x2A ∨ code = 0x36) := not_or.mpr ⟨hpress .left, hpress .right⟩
  have hbreak : ¬(code = 0xAA ∨ code = 0xB6) := not_or.mpr ⟨hrelease .left, hrelease .right⟩
  rw [shiftNext, if_neg hmake, if_neg hbreak]

theorem pressedLast_cons {code : U8} {codes : List U8} :
    PressedLast (code :: codes) ↔ PressedLast codes ∨
      (∃ key : ShiftKey, code = key.press) ∧ ∀ other : ShiftKey, other.release ∉ codes := by
  constructor
  · rintro ⟨before, key, after, heq, hafter⟩
    cases before with
    | nil =>
      obtain ⟨rfl, rfl⟩ := List.cons.inj heq
      exact .inr ⟨⟨key, rfl⟩, hafter⟩
    | cons first before =>
      obtain ⟨rfl, rfl⟩ := List.cons.inj heq
      exact .inl ⟨before, key, after, rfl, hafter⟩
  · rintro (⟨before, key, after, rfl, hafter⟩ | ⟨⟨key, rfl⟩, hcodes⟩)
    · exact ⟨code :: before, key, after, rfl, hafter⟩
    · exact ⟨[], key, codes, rfl, hcodes⟩

/-- What `SHIFT` is at the start counts until the first release. -/
theorem foldl_shiftNext_eq_true_iff (codes : List U8) : ∀ shift : Bool,
    codes.foldl shiftNext shift = true ↔
      PressedLast codes ∨ shift = true ∧ ∀ key : ShiftKey, key.release ∉ codes := by
  induction codes with
  | nil => simp [PressedLast]
  | cons code codes ih =>
    intro shift
    have htail : (∀ key : ShiftKey, key.release ∉ code :: codes) ↔
        (∀ key : ShiftKey, key.release ≠ code) ∧ ∀ key : ShiftKey, key.release ∉ codes := by
      simp only [List.mem_cons, not_or, forall_and, ne_eq]
    rw [List.foldl_cons, ih, pressedLast_cons, htail]
    by_cases hpress : ∃ key : ShiftKey, code = key.press
    · obtain ⟨key, rfl⟩ := hpress
      rw [shiftNext_press]
      grind
    by_cases hrelease : ∃ key : ShiftKey, code = key.release
    · obtain ⟨key, rfl⟩ := hrelease
      rw [shiftNext_release]
      grind
    · rw [shiftNext_other shift (not_exists.mp hpress) (not_exists.mp hrelease)]
      grind

theorem pollsShift_eq_true_iff (ports : List (U8 × U8)) :
    pollsShift false ports = true ↔ PressedLast (scancodes ports) := by
  rw [pollsShift, foldl_shiftNext_eq_true_iff]
  simp

theorem ShiftKey.foldl_next_true {key : ShiftKey} {codes : List U8} (h : key.release ∉ codes) :
    codes.foldl key.next true = true := by
  induction codes with
  | nil => rfl
  | cons code codes ih =>
    obtain ⟨hcode, hcodes⟩ := List.ne_and_not_mem_of_not_mem_cons h
    have hdown : key.next true code = true := by
      unfold ShiftKey.next
      rw [if_neg hcode.symm, ite_self]
    rw [List.foldl_cons, hdown]
    exact ih hcodes

theorem shiftHeld_eq_true_iff (codes : List U8) :
    shiftHeld codes = true ↔ ∃ key : ShiftKey, key.held codes = true := by
  rw [shiftHeld, Bool.or_eq_true]
  constructor
  · rintro (h | h)
    · exact ⟨.left, h⟩
    · exact ⟨.right, h⟩
  · rintro ⟨key, h⟩
    cases key
    · exact .inl h
    · exact .inr h

/-- The key that was pressed last is still held when nothing was released since. -/
theorem shiftHeld_of_pressedLast {codes : List U8} (h : PressedLast codes) :
    shiftHeld codes = true := by
  obtain ⟨before, key, after, rfl, hafter⟩ := h
  rw [shiftHeld_eq_true_iff]
  refine ⟨key, ?_⟩
  have hdown : ∀ down, key.next down key.press = true := fun down => if_pos rfl
  rw [ShiftKey.held, List.foldl_append, List.foldl_cons, hdown]
  exact ShiftKey.foldl_next_true (hafter key)

/-- The decoding follows the keys if, whenever a key that shift changes is struck while a shift key
is held, no shift key was released after the last press. -/
theorem shift_follows_keys_iff (ports : List (U8 × U8)) :
    FollowsKeys ports ↔
      ∀ before code, Struck ports before code → entry false code ≠ entry true code →
        shiftHeld (scancodes before) = true → PressedLast (scancodes before) := by
  unfold FollowsKeys
  refine forall₃_congr fun before code hstruck => ?_
  have hheld : pollsShift false before = true → shiftHeld (scancodes before) = true := fun h =>
    shiftHeld_of_pressedLast ((pollsShift_eq_true_iff before).mp h)
  rw [polls_charKey hstruck, ← pollsShift_eq_true_iff, Option.some_inj, Option.some_inj,
    Key.char.injEq]
  cases hshift : pollsShift false before <;> cases hkeys : shiftHeld (scancodes before) <;>
    simp_all

/-- With the left key held, the right one is pressed and released before `a` is struck. -/
def overlap : List (U8 × U8) := [(1, 0x2A), (1, 0x36), (1, 0xB6), (1, 0x1E)]

theorem shift_lost_on_release :
    (∀ key : ShiftKey, key.alternates false (scancodes overlap) = true) ∧
      ShiftKey.left.held (scancodes overlap) = true ∧
      polls false overlap = [none, none, none, some (.char 0x61)] ∧ ¬FollowsKeys overlap := by
  have hpolls : polls false overlap = [none, none, none, some (.char 0x61)] := by decide
  refine ⟨fun key => by cases key <;> decide, by decide, hpolls, ?_⟩
  intro hfollows
  have hkey := hfollows [(1, 0x2A), (1, 0x36), (1, 0xB6)] 0x1E ⟨by decide, 1, [], by decide, rfl⟩
  rw [hpolls] at hkey
  exact absurd hkey (by decide)

end Kfs.Keyboard
