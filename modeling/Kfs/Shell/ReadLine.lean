import Kfs.Shell
import Kfs.Vga.Line

/-!
# The line editor and the screen agree

`read_line` keeps the line twice: in its buffer and on the screen.  `Editing` says that both hold
the same text, and `edit` is the text that the keys stand for.

* `poll_char` says which bytes the keyboard can deliver.
* `Editing.pass` is one pass of the loop, `Editing.again` and `Editing.done` the loop up to Enter.
* `line_editor_agrees` begins with the prompt.
-/

namespace Kfs.Keyboard

/-- The byte of a key that has a picture. -/
def Printable (b : U8) : Prop := 0x20 ≤ b ∧ b ≤ 0x7E

instance (b : U8) : Decidable (Printable b) := inferInstanceAs (Decidable (_ ∧ _))

/-- The tables hold printable bytes, the newline of Enter, and zero where there is no key. -/
theorem table_bytes (shift : Bool) :
    ∀ b ∈ (if shift = true then UPPER else LOWER), b ≠ 0 → b = 0x0A ∨ Printable b := by
  have hall : (if shift = true then UPPER else LOWER).all (fun b =>
      b.toNat == 0 || b.toNat == 0x0A ||
        (Nat.ble 0x20 b.toNat && Nat.ble b.toNat 0x7E)) = true := by
    cases shift <;> rfl
  intro b hb hne
  have h := List.all_eq_true.mp hall b hb
  simp only [Bool.or_eq_true, Bool.and_eq_true, beq_iff_eq, Nat.ble_eq] at h
  unfold Printable
  bv_omega

theorem poll_char {shift : Bool} {status scancode b : U8}
    (h : (poll shift status scancode).1 = some (.char b)) : b = 0x0A ∨ Printable b := by
  have htable := table_bytes shift
  unfold poll at h
  generalize (if shift = true then UPPER else LOWER) = table at h htable
  -- no branch but the last one returns a character
  iterate 6
    split at h
    · cases h
  dsimp only at h
  split at h
  · rename_i c hc
    split at h
    · rename_i hne
      cases h
      exact htable b (List.mem_of_getElem? hc) hne
    · cases h
  · cases h

theorem polls_char (ports : List (U8 × U8)) : ∀ {shift : Bool} {b : U8},
    some (.char b) ∈ polls shift ports → b = 0x0A ∨ Printable b := by
  induction ports with
  | nil =>
    intro shift b h
    cases h
  | cons port ports ih =>
    intro shift b h
    rcases List.mem_cons.mp h with h | h
    · exact poll_char h.symm
    · exact ih h

end Kfs.Keyboard

namespace Kfs.Shell

open Vga Keyboard

/-! ## The text that the keys stand for -/

/-- A key appends its byte if fewer than `LINE_MAX` are held, and Backspace removes the last one. -/
def editKey (text : List U8) : Option Key → List U8
  | some (.char b) => if text.length < LINE_MAX then text ++ [b] else text
  | some .backspace => text.dropLast
  | _ => text

def edit (keys : List (Option Key)) : List U8 := keys.foldl editKey []

/-! ## The buffer -/

theorem Editor.length_line (e : Editor) : e.line.length = e.n := by
  rw [Editor.line, List.length_map, List.length_range]

theorem Editor.line_push (e : Editor) (b : U8) (v : Display) :
    (⟨Function.update e.buf e.n b, e.n + 1, v⟩ : Editor).line = e.line ++ [b] := by
  simp only [Editor.line, List.range_succ, List.map_append, List.map_cons, List.map_nil,
    Function.update_self]
  congr 1
  apply List.map_congr_left
  intro i hi
  exact Function.update_of_ne (Nat.ne_of_lt (List.mem_range.mp hi)) _ _

theorem Editor.line_pop (e : Editor) (v : Display) :
    (⟨e.buf, e.n - 1, v⟩ : Editor).line = e.line.dropLast := by
  simp only [Editor.line]
  cases e.n with
  | zero => rfl
  | succ n => rw [List.range_succ, List.map_append, List.map_singleton, List.dropLast_concat,
      Nat.add_sub_cancel]

/-! ## One pass -/

/-- The buffer holds `text`, and row `r` of the screen the prompt and `text`, with the cursor behind
it and nothing but spaces from there on.  The other rows are those of `base`. -/
structure Editing (base : Screen) (r : Nat) (text : List U8) (e : Editor) : Prop where
  line : e.line = text
  n_le : e.n ≤ LINE_MAX
  typed : ∀ b ∈ text, Printable b
  screen : e.display.live.Line base r (PROMPT ++ text)

namespace Editing

variable {base : Screen} {r : Nat} {text : List U8} {e : Editor}

theorem length_eq (h : Editing base r text e) : text.length = e.n := by
  rw [← h.line, Editor.length_line]

theorem char (h : Editing base r text e) {b : U8} (hb : Printable b) :
    ∃ e', pass e (some (.char b)) = .again e' ∧
      Editing base r (editKey text (some (.char b))) e' := by
  have hlen := h.length_eq
  have hnl : b ≠ 0x0A := by
    rintro rfl
    exact absurd hb (by decide)
  rw [pass, if_neg hnl, editKey, hlen]
  split
  · rename_i hlt
    refine ⟨_, rfl, ?_, hlt, ?_, ?_⟩
    · rw [Editor.line_push, h.line]
    · intro c hc
      rcases List.mem_append.mp hc with hc | hc
      · exact h.typed c hc
      · rwa [List.mem_singleton.mp hc]
    · have hscreen := h.screen.putb hnl (by
        rw [List.length_append, hlen, show PROMPT.length = 5 from rfl]
        simp only [LINE_MAX, WIDTH] at hlt ⊢
        omega)
      rwa [List.append_assoc] at hscreen
  · exact ⟨e, rfl, h⟩

theorem backspace (h : Editing base r text e) :
    ∃ e', pass e (some .backspace) = .again e' ∧
      Editing base r (editKey text (some .backspace)) e' := by
  have hlen := h.length_eq
  rw [pass, editKey]
  split
  · rename_i hpos
    have hne : text ≠ [] := List.length_pos_iff.mp (by omega)
    have hcursor := h.screen.cursor
    rw [List.length_append, show PROMPT.length = 5 from rfl] at hcursor
    have hlive : e.display.backspace.live = e.display.live.stepBack := by
      rw [Display.backspace, if_pos (by omega)]
      rfl
    refine ⟨_, rfl, ?_, Nat.le_trans (Nat.sub_le _ 1) h.n_le, ?_, ?_⟩
    · rw [Editor.line_pop, h.line]
    · exact fun c hc => h.typed c (List.dropLast_subset text hc)
    · have hscreen := h.screen.stepBack (by simp [hne])
      rw [List.dropLast_append_of_ne_nil hne] at hscreen
      show Screen.Line e.display.backspace.live base r _
      rwa [hlive]
  · rename_i hzero
    have hnil : text = [] := List.length_eq_zero_iff.mp (by omega)
    refine ⟨e, rfl, ?_⟩
    rw [hnil] at h ⊢
    exact h

/-- A key that is not Enter and does not switch the screen. -/
theorem pass (h : Editing base r text e) (key : Option Key)
    (hscreen : ∀ n, key ≠ some (.screen n)) (henter : key ≠ some (.char 0x0A))
    (hchar : ∀ b, key = some (.char b) → b = 0x0A ∨ Printable b) :
    ∃ e', Shell.pass e key = .again e' ∧ Editing base r (editKey text key) e' := by
  cases key with
  | none => exact ⟨e, rfl, h⟩
  | some key =>
    cases key with
    | screen n => exact absurd rfl (hscreen n)
    | backspace => exact h.backspace
    | char b =>
      rcases hchar b rfl with rfl | hb
      · exact absurd rfl henter
      · exact h.char hb

/-! ## The loop -/

/-- Up to Enter the loop goes on, and the buffer and the screen hold what the keys stand for. -/
theorem again (keys : List (Option Key)) : ∀ {text : List U8} {e : Editor},
    Editing base r text e → (∀ n, some (.screen n) ∉ keys) → some (.char 0x0A) ∉ keys →
    (∀ b, some (.char b) ∈ keys → b = 0x0A ∨ Printable b) →
    ∃ e', readLineFrom e keys = .again e' ∧ Editing base r (keys.foldl editKey text) e' := by
  induction keys with
  | nil => exact fun {_ e} h _ _ _ => ⟨e, rfl, h⟩
  | cons key keys ih =>
    intro text e h hscreen henter hchar
    obtain ⟨e', hpass, h'⟩ := h.pass key
      (fun n hn => hscreen n (List.mem_cons.mpr (Or.inl hn.symm)))
      (fun hn => henter (List.mem_cons.mpr (Or.inl hn.symm)))
      (fun b hb => hchar b (List.mem_cons.mpr (Or.inl hb.symm)))
    rw [readLineFrom, hpass]
    exact ih h' (fun n hn => hscreen n (List.mem_cons_of_mem _ hn))
      (fun hn => henter (List.mem_cons_of_mem _ hn))
      (fun b hb => hchar b (List.mem_cons_of_mem _ hb))

end Editing

/-- The loop over keys that are polled one after the other. -/
theorem readLineFrom_append (before after : List (Option Key)) : ∀ {e e' : Editor},
    readLineFrom e before = .again e' →
    readLineFrom e (before ++ after) = readLineFrom e' after := by
  induction before with
  | nil =>
    intro e e' h
    cases h
    rfl
  | cons key before ih =>
    intro e e' h
    rw [readLineFrom] at h
    rw [List.cons_append, readLineFrom]
    cases hpass : pass e key with
    | again f =>
      rw [hpass] at h
      exact ih h
    | done f =>
      rw [hpass] at h
      cases h

/-- The prompt begins a line at the start of a row. -/
theorem prompt_line {v : Display} (h : v.live.Tidy) (hcol : v.live.cursor % WIDTH = 0) :
    (prompt v).live.Line v.live (v.live.cursor / WIDTH) PROMPT := by
  have hstart := (Screen.Line.start h hcol).setColor .brightCyan .black
  exact (hstart.putBytes PROMPT (by decide) (by decide)).setColor .white .black

/-- A state of the driver that the kernel reaches.  `kmain` clears the screen first. -/
def Started (v : Display) : Prop :=
  ∃ cells crtc ops, v = (Display.boot cells crtc).run (.clear :: ops)

/-- After the prompt at column 0, for every sequence of polls without a key that switches the
screen: until Enter comes the buffer and the screen hold the text of the keys so far, and Enter
returns it. -/
theorem line_editor_agrees {v : Display} (hv : Started v) (hcol : v.live.cursor % WIDTH = 0)
    (buf : Nat → U8) (shift : Bool) (ports : List (U8 × U8))
    (hscreen : ∀ n, some (.screen n) ∉ polls shift ports) :
    (some (.char 0x0A) ∉ polls shift ports →
      ∃ e, readLine buf (prompt v) (polls shift ports) = .again e ∧
        Editing v.live (v.live.cursor / WIDTH) (edit (polls shift ports)) e) ∧
    ∀ before after, polls shift ports = before ++ some (.char 0x0A) :: after →
      some (.char 0x0A) ∉ before →
      ∃ e, readLine buf (prompt v) (polls shift ports) = .done e ∧ e.line = edit before := by
  obtain ⟨cells, crtc, ops, hrun⟩ := hv
  have htidy : v.live.Tidy := by
    rw [hrun]
    exact Screen.tidy_run cells crtc ops
  have hstart : Editing v.live (v.live.cursor / WIDTH) [] ⟨buf, 0, prompt v⟩ :=
    ⟨rfl, Nat.zero_le _, fun _ hb => absurd hb List.not_mem_nil,
      by rw [List.append_nil]; exact prompt_line htidy hcol⟩
  have hchar : ∀ b, some (.char b) ∈ polls shift ports → b = 0x0A ∨ Printable b :=
    fun b hb => polls_char ports hb
  refine ⟨fun henter => hstart.again _ hscreen henter hchar, fun before after heq henter => ?_⟩
  rw [heq] at hscreen hchar ⊢
  obtain ⟨e, hagain, he⟩ := hstart.again before
    (fun n hn => hscreen n (List.mem_append_left _ hn)) henter
    (fun b hb => hchar b (List.mem_append_left _ hb))
  refine ⟨_, (readLineFrom_append before _ hagain).trans rfl, he.line⟩

/-- The screen that `kmain` has cleared. -/
def firstScreen : Display := (Display.boot (fun _ => 0) ⟨0, fun _ => 0⟩).run [.clear]

/-- `a`, its release, no key, `b` and Backspace. -/
def somePorts : List (U8 × U8) := [(1, 0x1E), (1, 0x9E), (0, 0), (1, 0x30), (1, 0x0E)]

theorem line_editor_agrees_first :
    Started firstScreen ∧ firstScreen.live.cursor % WIDTH = 0 ∧
      (∀ n, some (.screen n) ∉ polls false somePorts) ∧
      ∃ e, readLine (fun _ => 0) (prompt firstScreen) (polls false somePorts) = .again e ∧
        Editing firstScreen.live (firstScreen.live.cursor / WIDTH) [0x61] e := by
  have hstarted : Started firstScreen := ⟨_, _, _, rfl⟩
  have hcursor : firstScreen.live.cursor = 0 := by
    rw [firstScreen, Display.run, List.foldl_cons, List.foldl_nil, Display.step, Display.clear,
      clear_eq]
    rfl
  have hcol : firstScreen.live.cursor % WIDTH = 0 := by rw [hcursor, Nat.zero_mod]
  have hkeys : polls false somePorts
      = [some (.char 0x61), none, none, some (.char 0x62), some .backspace] := by decide
  have hscreen : ∀ n, some (.screen n) ∉ polls false somePorts := by
    intro n
    rw [hkeys]
    simp
  have hedit : edit (polls false somePorts) = [0x61] := by
    rw [hkeys]
    decide
  obtain ⟨hagain, _⟩ := line_editor_agrees hstarted hcol (fun _ => 0) false somePorts hscreen
  rw [hedit] at hagain
  exact ⟨hstarted, hcol, hscreen, hagain (by rw [hkeys]; decide)⟩

end Kfs.Shell
