import BootableRecovery.Gui.Utf8

namespace BootableRecovery.Gui

/-! The back-end of the terminal. An access outside of `lines` or of the cells is `none`. -/

inductive KState
  | ground
  | esc
  | csi
  deriving DecidableEq, Repr

/-- A line is UTF-8 text; the one at `unpackedY` is also there as cells. -/
structure TerminalEngine where
  cursorX : ℤ
  cursorY : ℤ
  linewrap : Bool
  width : ℤ
  height : ℤ
  lines : List (List UInt8)
  unpackedLine : List ℕ
  unpackedY : ℕ
  state : KState
  utf8 : Utf8
  ctlseq : List Char
  deriving DecidableEq, Repr

/-- `atoi` on the digits of a control sequence, and whether `char` is signed. -/
structure Platform where
  atoi : List Char → ℤ
  signedChar : Bool

/-- An `int` -/
def i32 (x : ℤ) : ℤ := x.bmod (2 ^ 32)

def blank : ℕ := 0x20

/-- `resize` of a line with fewer cells -/
def resized (cells : List ℕ) (n : ℕ) : List ℕ := cells ++ List.replicate (n - cells.length) blank

def eraseFrom (cells : List ℕ) (x : ℕ) : List ℕ := cells.take x

def eraseTo (cells : List ℕ) (x : ℕ) : Option (List ℕ) :=
  if 0 < x then
    if x ≤ cells.length then some (cells.drop x) else none
  else some cells

namespace TerminalEngine

variable (pf : Platform) (e : TerminalEngine)

def setX (x : ℤ) : TerminalEngine :=
  { e with cursorX := min e.width (max x 0), linewrap := false }

def setY (y : ℤ) : TerminalEngine :=
  let y := max y 0
  { e with
    cursorY := y
    linewrap := false
    lines := e.lines ++ List.replicate (y.toNat + 1 - e.lines.length) [] }

def up (n : ℤ) : TerminalEngine := e.setY (i32 (e.cursorY - n))

def down (n : ℤ) : TerminalEngine := e.setY (i32 (e.cursorY + n))

def left (n : ℤ) : TerminalEngine := e.setX (i32 (e.cursorX - n))

def right (n : ℤ) : TerminalEngine := e.setX (i32 (e.cursorX + n))

/-- The text of some cells. -/
def packed (cells : List ℕ) : List UInt8 := cells.flatMap utf8add

/-- The cells of a text, with blanks up to the width. -/
def unpacked (width : ℤ) (s : List UInt8) : List ℕ :=
  let cells := decodeCells ⟨0, 0⟩ s
  if cells.length < width.toNat then resized cells width.toNat else cells

def packLine : Option TerminalEngine :=
  if e.unpackedY < e.lines.length then
    some { e with lines := e.lines.set e.unpackedY (packed e.unpackedLine) }
  else none

def unpackLine (y : ℕ) : Option TerminalEngine :=
  e.lines[y]?.map fun s => { e with unpackedLine := unpacked e.width s, unpackedY := y }

def ensureUnpacked (y : ℕ) : Option TerminalEngine :=
  if e.unpackedY ≠ y then e.packLine.bind fun e => e.unpackLine y else some e

def clear : Option TerminalEngine :=
  ((setY { e with cursorX := 0, cursorY := 0, lines := [] } 0).unpackLine 0).map fun e =>
    { e with linewrap := false }

/-- The passes of the loop of HT; seven are enough. -/
def tabLoop : ℕ → TerminalEngine → TerminalEngine
  | 0, e => e
  | n + 1, e => if e.cursorX % 8 ≠ 0 ∧ e.cursorX < e.width then tabLoop n (e.right 1) else e

def processC0 (ch : ℤ) : TerminalEngine :=
  if ch = 8 then e.left 1
  else if ch = 9 then tabLoop 7 (e.right 1)
  else if ch = 10 ∨ ch = 11 ∨ ch = 12 then e.down 1
  else if ch = 13 then e.setX 0
  else if ch = 24 ∨ ch = 26 then { e with state := .ground, ctlseq := [] }
  else if ch = 27 then { e with state := .esc, ctlseq := [] }
  else e

def processChar (cp : ℕ) : Option TerminalEngine :=
  let e := if e.linewrap then (e.down 1).setX 0 else e
  (e.ensureUnpacked e.cursorY.toNat).bind fun e =>
    let cells :=
      if e.unpackedLine.length ≤ e.cursorX.toNat then resized e.unpackedLine (e.cursorX.toNat + 1)
      else e.unpackedLine
    if e.cursorX.toNat < cells.length then
      let e := { e with unpackedLine := cells.set e.cursorX.toNat cp }.right 1
      some (if e.width ≤ e.cursorX then { e with linewrap := true } else e)
    else none

def processEsc (cp : ℕ) : TerminalEngine :=
  if cp = 'c'.toNat then e
  else if cp = 'D'.toNat then e.down 1
  else if cp = 'E'.toNat then (e.setX 0).down 1
  else if cp = '['.toNat then { e with state := .csi, ctlseq := [] }
  else { e with state := .ground }

/-- The number at the start of a control sequence, and what is behind its semicolon. -/
def parseArg (s : List Char) (defaultvalue : ℤ) : ℤ × List Char :=
  match s with
  | [] => (defaultvalue, s)
  | c :: _ =>
    if c.isDigit then (i32 (pf.atoi s), (s.dropWhile fun c => c != ';').drop 1)
    else (defaultvalue, s)

/-- ED -/
def eraseInPage (param : ℤ) : Option TerminalEngine :=
  (e.ensureUnpacked e.cursorY.toNat).bind fun e =>
    if param = 1 then
      (eraseTo e.unpackedLine e.cursorX.toNat).bind fun cells =>
        let e := { e with unpackedLine := cells }
        if 0 < e.cursorY then
          if (e.cursorY - 1).toNat ≤ e.lines.length then
            some { e with lines := e.lines.drop (e.cursorY - 1).toNat, cursorY := 0 }
          else none
        else some e
    else if param = 2 ∨ param = 3 then e.clear
    else
      some { e with
        unpackedLine := eraseFrom e.unpackedLine e.cursorX.toNat
        lines := e.lines.take (e.cursorY.toNat + 1) }

/-- EL -/
def eraseInLine (param : ℤ) : Option TerminalEngine :=
  (e.ensureUnpacked e.cursorY.toNat).bind fun e =>
    if param = 1 then
      (eraseTo e.unpackedLine e.cursorX.toNat).map fun cells => { e with unpackedLine := cells }
    else if param = 2 then some { e with unpackedLine := [] }
    else some { e with unpackedLine := eraseFrom e.unpackedLine e.cursorX.toNat }

/-- A sequence that ends with `f`. The answer to `6n` goes to the pty. -/
def execControlSequence (ctlseq : List Char) (f : Char) : Option TerminalEngine :=
  if ctlseq = ['6', 'n'] then some e
  else
    let arg := (parseArg pf ctlseq 1).1
    match f with
    | 'A' => some (e.up arg)
    | 'B' => some (e.down arg)
    | 'e' => some (e.down arg)
    | 'C' => some (e.right arg)
    | 'a' => some (e.right arg)
    | 'D' => some (e.left arg)
    | 'E' => some ((e.down arg).setX 0)
    | 'F' => some ((e.up arg).setX 0)
    | 'G' => some (e.setX (i32 (arg - 1)))
    | 'H' =>
      let (row, rest) := parseArg pf ctlseq 1
      some ((e.setY (i32 (row - 1))).setX (i32 ((parseArg pf rest 1).1 - 1)))
    | 'J' => e.eraseInPage (parseArg pf ctlseq 0).1
    | 'K' => e.eraseInLine (parseArg pf ctlseq 0).1
    | _ => some e

/-- The code points that end a control sequence. -/
def isFinal (cp : ℕ) : Bool := 0x40 ≤ cp ∧ cp ≤ 0x7e

def processControlSequence (cp : ℕ) : Option TerminalEngine :=
  if isFinal cp then
    let ctlseq := e.ctlseq ++ [Char.ofNat cp]
    (e.execControlSequence pf ctlseq (Char.ofNat cp)).map fun e =>
      { e with ctlseq := [], state := .ground }
  else if (Char.ofNat cp).isDigit ∨ cp = ';'.toNat then
    some { e with ctlseq := e.ctlseq ++ [Char.ofNat cp] }
  else some e

def processCodePoint (cp : ℕ) : Option TerminalEngine :=
  if cp = 0x9b then some { e with state := .csi, ctlseq := [] }
  else
    match e.state with
    | .ground => e.processChar cp
    | .esc => some (e.processEsc cp)
    | .csi => e.processControlSequence pf cp

/-- A `char` as `int` -/
def charValue (ch : UInt8) : ℤ :=
  if pf.signedChar ∧ 128 ≤ ch.toNat then (ch.toNat : ℤ) - 256 else ch.toNat

def output (ch : UInt8) : Option TerminalEngine :=
  if charValue pf ch < 32 then
    let e := e.processC0 (charValue pf ch)
    -- control characters end an incomplete sequence of bytes
    some { e with utf8 := { e.utf8 with state := utf8Accept } }
  else
    let u := utf8decode e.utf8 ch
    let e := { e with utf8 := u }
    if u.state = utf8Accept then e.processCodePoint pf u.codep
    else if u.state = utf8Reject then some { e with utf8 := { u with state := utf8Accept } }
    else some e

def setSize (xChars yChars : ℤ) : TerminalEngine := { e with width := xChars, height := yChars }

/-- `getLine`, which packs the line first if it is the unpacked one. -/
def getLine (n : ℕ) : Option (TerminalEngine × List UInt8) :=
  (if e.unpackedY = n then e.packLine else some e).bind fun e => e.lines[n]?.map fun s => (e, s)

/-- The constructor; `clear` sets what it leaves open. -/
def start : Option TerminalEngine :=
  clear
    { cursorX := 0, cursorY := 0, linewrap := false, width := 40, height := 10, lines := [],
      unpackedLine := [], unpackedY := 0, state := .ground, utf8 := ⟨0, 0⟩, ctlseq := [] }

end TerminalEngine

/-- What reaches the engine. -/
inductive TerminalOp
  | setSize (xChars yChars : ℤ)
  | output (ch : UInt8)
  | clear
  | render (itemindex : ℕ)
  deriving DecidableEq, Repr

namespace TerminalEngine

variable (pf : Platform) (e : TerminalEngine)

/-- The list renders no item beyond `getLinesCount`. -/
def step : TerminalOp → Option TerminalEngine
  | .setSize xChars yChars => some (e.setSize xChars yChars)
  | .output ch => e.output pf ch
  | .clear => e.clear
  | .render itemindex =>
    if itemindex < e.lines.length then (e.getLine itemindex).map Prod.fst else some e

end TerminalEngine

end BootableRecovery.Gui
