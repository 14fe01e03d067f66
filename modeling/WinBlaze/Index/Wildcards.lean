import WinBlaze.Index.Query
import WinBlaze.Lib.Glob

/-!
# File name wildcards

The exports and the scan rules match file names with one algorithm over three
kinds of text. It compares a pattern's star with the name before it takes it for a
wildcard, so a star that faces a star of the name stands for that one only.
-/

namespace WinBlaze

namespace Wildcards

def sameChar (c d : Char) : Bool := c = '?' || c = d

def starChar (c : Char) : Bool := c = '*'

def sameByte (c d : UInt8) : Bool :=
  c = '?'.toUInt8 || byteToAsciiLowercase c = byteToAsciiLowercase d

def starByte (c : UInt8) : Bool := c = '*'.toUInt8

/-! ## The three matchers -/

/-- Exports of names that are not ASCII. Pattern and name are in lower case. -/
def unicodeWildcard (p n : List Char) (fuel : ℕ) : Option Bool :=
  Glob.Cursor.run sameChar starChar p n fuel {}

def asciiWildcard (p n : List UInt8) (fuel : ℕ) : Option Bool :=
  Glob.Cursor.run sameByte starByte p n fuel {}

/-- Scan rules. -/
def wildcard (pattern name : String) (fuel : ℕ) : Option Bool :=
  Glob.Cursor.run sameChar starChar pattern.toList name.toList fuel {}

/-! ## Their languages -/

/-- Star for any text, question mark for any character, others for themselves. -/
def InGlob (p n : List Char) : Prop := Glob.Accepts sameChar starChar p n

/-- In the glob language with each star that faces a star taking just that one. -/
def InLiteralGlob (p n : List Char) : Prop := Glob.AcceptsLiterally sameChar starChar p n

def InAsciiGlob (p n : List UInt8) : Prop := Glob.Accepts sameByte starByte p n

def InAsciiLiteralGlob (p n : List UInt8) : Prop := Glob.AcceptsLiterally sameByte starByte p n

theorem sameChar_star {c d : Char} (hc : starChar c = true) (hd : d ≠ '*') :
    sameChar c d = false := by
  obtain rfl := of_decide_eq_true hc
  simpa [sameChar] using hd.symm

/-- A name without a star is matched as the glob language says. -/
theorem unicodeWildcard_decides (p : List Char) {n : List Char} (hn : '*' ∉ n) :
    Glob.Decides (unicodeWildcard p n) (InGlob p n) := by
  refine ((Glob.Cursor.decides_run sameChar starChar p n).iff _).mpr
    ⟨fun h ↦ ?_, fun h ↦ h.accepts⟩
  exact h.literally fun c hc d hd ↦ sameChar_star hc fun heq ↦ hn (heq ▸ hd)

/-- A matcher of the literal language decides the glob language where they agree. -/
theorem decides_iff {run : ℕ → Option Bool} {glob literal : Prop} (h : Glob.Decides run literal)
    (hle : literal → glob) : Glob.Decides run glob ↔ (glob → literal) := by
  rw [h.iff glob]
  exact ⟨Iff.mp, fun himp ↦ ⟨himp, hle⟩⟩

/-- Each matcher ends with the glob language's answer for exactly the names that are not in
the language, or are in it with each star that faces a star taking just that one. -/
theorem wildcards_decide_iff (p n : List Char) (pattern name : String) (q m : List UInt8) :
    (Glob.Decides (unicodeWildcard p n) (InGlob p n) ↔ (InGlob p n → InLiteralGlob p n)) ∧
      (Glob.Decides (asciiWildcard q m) (InAsciiGlob q m) ↔
        (InAsciiGlob q m → InAsciiLiteralGlob q m)) ∧
      (Glob.Decides (wildcard pattern name) (InGlob pattern.toList name.toList) ↔
        (InGlob pattern.toList name.toList → InLiteralGlob pattern.toList name.toList)) := by
  refine ⟨?_, ?_, ?_⟩
  · exact decides_iff (Glob.Cursor.decides_run sameChar starChar p n) Glob.AcceptsLiterally.accepts
  · exact decides_iff (Glob.Cursor.decides_run sameByte starByte q m) Glob.AcceptsLiterally.accepts
  · exact decides_iff (Glob.Cursor.decides_run sameChar starChar pattern.toList name.toList)
      Glob.AcceptsLiterally.accepts

/-- A name that begins with a star does not match the pattern of a star and its end. -/
theorem wildcards_star_name :
    (InGlob "*a".toList "*ba".toList ∧
        ¬ Glob.Decides (unicodeWildcard "*a".toList "*ba".toList)
          (InGlob "*a".toList "*ba".toList)) ∧
      (InAsciiGlob (bytes "*a") (bytes "*ba") ∧
        ¬ Glob.Decides (asciiWildcard (bytes "*a") (bytes "*ba"))
          (InAsciiGlob (bytes "*a") (bytes "*ba"))) ∧
      ¬ Glob.Decides (wildcard "*a" "*ba") (InGlob "*a".toList "*ba".toList) := by
  have hglob : InGlob "*a".toList "*ba".toList := .star ['*', 'b'] rfl (.one rfl rfl .nil)
  have hascii : InAsciiGlob (bytes "*a") (bytes "*ba") := .star [42, 98] rfl (.one rfl rfl .nil)
  have hchars : unicodeWildcard "*a".toList "*ba".toList 3 = some false := by decide +kernel
  have hbytes : asciiWildcard (bytes "*a") (bytes "*ba") 3 = some false := by decide +kernel
  refine ⟨⟨hglob, fun h ↦ ?_⟩, ⟨hascii, fun h ↦ ?_⟩, fun h ↦ ?_⟩
  · exact Bool.false_ne_true ((h.2 3 false hchars).mpr hglob)
  · exact Bool.false_ne_true ((h.2 3 false hbytes).mpr hascii)
  · exact Bool.false_ne_true ((h.2 3 false hchars).mpr hglob)

end Wildcards

end WinBlaze
