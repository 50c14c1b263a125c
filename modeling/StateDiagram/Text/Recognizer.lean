namespace StateDiagram

/-- The number of characters taken from the front of a text, or `none` where the recognizer does not
apply. Choice is ordered and repetition is greedy; neither gives characters back. -/
abbrev Recognizer := List Char → Option Nat

namespace Recognizer

def literal (text : List Char) : Recognizer := fun cs =>
  if text.isPrefixOf cs then some text.length else none

/-- One character of a class. -/
def one (p : Char → Bool) : Recognizer
  | [] => none
  | c :: _ => if p c then some 1 else none

/-- All leading characters of a class, perhaps none. -/
def run (p : Char → Bool) : Recognizer := fun cs => some (cs.takeWhile p).length

def andThen (r s : Recognizer) : Recognizer := fun cs =>
  match r cs with
  | none => none
  | some n => (s (cs.drop n)).map (n + ·)

def orElse (r s : Recognizer) : Recognizer := fun cs =>
  match r cs with
  | none => s cs
  | some n => some n

def optional (r : Recognizer) : Recognizer := fun cs => some ((r cs).getD 0)

/-- The characters taken by applying `r` until it fails or takes nothing. -/
def repeatedLength (r : Recognizer) : List Char → Nat
  | [] => 0
  | c :: cs =>
    match r (c :: cs) with
    | some (n + 1) => n + 1 + repeatedLength r (cs.drop n)
    | _ => 0
termination_by cs => cs.length
decreasing_by simp only [List.length_drop, List.length_cons]; omega

def repeated (r : Recognizer) : Recognizer := fun cs => some (repeatedLength r cs)

/-- At least one application of `r`. -/
def repeatedOnce (r : Recognizer) : Recognizer := r.andThen r.repeated

/-- Everything up to and including the first occurrence of `close`. -/
def upTo (close : List Char) : Recognizer
  | [] => literal close []
  | c :: cs => if close.isPrefixOf (c :: cs) then some close.length else (upTo close cs).map (1 + ·)

def oneOf (chars : List Char) : Recognizer := one chars.contains

def noneOf (chars : List Char) : Recognizer := one fun c => !chars.contains c

/-- The first of several literals that applies. -/
def firstLiteral : List (List Char) → Recognizer
  | [] => fun _ => none
  | text :: texts => (literal text).orElse (firstLiteral texts)

/-- A recognizer that takes at least one character whenever it applies. -/
def Positive (r : Recognizer) : Prop := ∀ cs n, r cs = some n → 0 < n

theorem Positive.literal {text : List Char} (h : text ≠ []) : Positive (literal text) := by
  intro cs n hn
  simp only [Recognizer.literal] at hn
  split at hn
  · cases hn; exact List.length_pos_iff.2 h
  · cases hn

theorem Positive.one (p : Char → Bool) : Positive (one p) := by
  intro cs n hn
  cases cs with
  | nil => cases hn
  | cons c cs =>
    simp only [Recognizer.one] at hn
    split at hn <;> cases hn
    exact Nat.one_pos

theorem Positive.andThen {r : Recognizer} (h : Positive r) (s : Recognizer) :
    Positive (r.andThen s) := by
  intro cs n hn
  simp only [Recognizer.andThen] at hn
  split at hn
  · cases hn
  · next m hm =>
    obtain ⟨k, _, rfl⟩ := Option.map_eq_some_iff.1 hn
    exact Nat.add_pos_left (h cs m hm) k

theorem Positive.orElse {r s : Recognizer} (hr : Positive r) (hs : Positive s) :
    Positive (r.orElse s) := by
  intro cs n hn
  simp only [Recognizer.orElse] at hn
  split at hn
  · exact hs cs n hn
  · next m hm => cases hn; exact hr cs n hm

theorem Positive.firstLiteral {texts : List (List Char)} (h : ∀ text ∈ texts, text ≠ []) :
    Positive (firstLiteral texts) := by
  induction texts with
  | nil => intro cs n hn; cases hn
  | cons text texts ih =>
    exact (Positive.literal (h text (by simp))).orElse
      (ih fun text hmem => h text (by simp [hmem]))

end Recognizer

end StateDiagram
