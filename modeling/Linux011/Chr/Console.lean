/-
  The console (kernel/chr_drv/console.c): con_init, and con_write for one byte after the other, with
  every store into memory.

  Machine words of 32 bits are numbers below 2^32; what is computed is cut down by `word` where it is
  assigned. A byte is handled before the next one. What the terminal answers (`respond`) goes to the
  read queue, and where its echo is written at once it is later bytes here; the bell changes nothing
  here.
-/
import Mathlib.Data.Int.Notation
import Mathlib.Data.List.Basic
import Linux011.Lib.Bytes
import Linux011.Lib.Trans
import Linux011.Chr.Tty

namespace Linux011.Chr

open Lib

def word (z : ℤ) : ℕ := (z % 4294967296).toNat

inductive VideoType
  | MDA
  | CGA
  | EGAM
  | EGAC
  deriving DecidableEq

/-- What con_init sets once. -/
structure Video where
  type : VideoType
  numColumns : ℕ
  sizeRow : ℕ
  numLines : ℕ
  memStart : ℕ
  memEnd : ℕ
  eraseChar : ℕ

/-- The console's variables, the memory, the registers of the video controller, and the stores so far:
    address and number of bytes, the last one first. -/
structure Con where
  video : Video
  mem : Bytes
  stores : List (ℕ × ℕ)
  crtc : ℕ → ℕ
  origin : ℕ
  scrEnd : ℕ
  pos : ℕ
  x : ℕ
  y : ℕ
  top : ℕ
  bottom : ℕ
  state : ℕ
  npar : ℕ
  par : ℕ → ℕ
  ques : Bool
  attr : ℕ
  savedX : ℕ
  savedY : ℕ

def NPAR : ℕ := 16

namespace Con

variable (c : Con)

def poke (n a v : ℕ) : Con := { c with mem := c.mem.store n a v, stores := (a, n) :: c.stores }

/-- `rep; movsl`, up for `d = 1` and down for `d = -1`, and `%edi` behind it. -/
def movsl (d : ℤ) : ℕ → ℕ → ℕ → Con → Con × ℕ
  | 0, di, _, c => (c, di)
  | n + 1, di, si, c => movsl d n (word (di + 4 * d)) (word (si + 4 * d)) (c.poke 4 di (c.mem.load 4 si))

/-- `rep; stosw` with the erase character. -/
def stosw (d : ℤ) : ℕ → ℕ → Con → Con
  | 0, _, c => c
  | n + 1, di, c => stosw d n (word (di + 2 * d)) (c.poke 2 di c.video.eraseChar)

/-- A word for the controller, high byte first. -/
def outCrtc (reg v : ℕ) : Con :=
  { c with crtc := Function.update (Function.update c.crtc reg (v / 256 % 256)) (reg + 1) (v % 256) }

/-! ## Cursor and scrolling -/

def gotoxy (newX newY : ℕ) : Con :=
  if newX > c.video.numColumns ∨ newY ≥ c.video.numLines then c
  else { c with x := newX, y := newY, pos := word (c.origin + newY * c.video.sizeRow + 2 * newX) }

def setOrigin : Con := c.outCrtc 12 (word (c.origin - c.video.memStart : ℤ) / 2)

def setCursor : Con := c.outCrtc 14 (word (c.pos - c.video.memStart : ℤ) / 2)

def isEga : Bool := c.video.type = .EGAC || c.video.type = .EGAM

/-- `(bottom-top-1)*video_num_columns>>1` -/
def regionLongs : ℕ := word ((c.bottom - c.top - 1 : ℤ) * c.video.numColumns) / 2

/-- The lines of the region move up by one. -/
def scrupRegion : Con :=
  let r := movsl 1 c.regionLongs (word (c.origin + c.video.sizeRow * c.top))
    (word (c.origin + c.video.sizeRow * (c.top + 1))) c
  stosw 1 c.video.numColumns r.2 r.1

/-- The screen is one line further on in video memory. -/
def nextOrigin : Con :=
  { c with
    origin := word (c.origin + c.video.sizeRow), pos := word (c.pos + c.video.sizeRow),
    scrEnd := word (c.scrEnd + c.video.sizeRow) }

/-- The screen is copied to the start of video memory. -/
def backToStart : Con :=
  let r := movsl 1 (word ((c.video.numLines - 1 : ℤ) * c.video.numColumns) / 2) c.video.memStart c.origin c
  let c := stosw 1 c.video.numColumns r.2 r.1
  { c with
    scrEnd := word (c.scrEnd - (c.origin - c.video.memStart : ℤ)),
    pos := word (c.pos - (c.origin - c.video.memStart : ℤ)), origin := c.video.memStart }

def scrup : Con :=
  if c.isEga ∧ c.top = 0 ∧ c.bottom = c.video.numLines then
    let c := c.nextOrigin
    let c :=
      if c.scrEnd > c.video.memEnd then c.backToStart
      else stosw 1 c.video.numColumns (word (c.scrEnd - c.video.sizeRow : ℤ)) c
    c.setOrigin
  else c.scrupRegion

/-- The same for the four types of display. -/
def scrdown : Con :=
  let r := movsl (-1) c.regionLongs (word (c.origin + c.video.sizeRow * c.bottom - 4 : ℤ))
    (word (c.origin + c.video.sizeRow * (c.bottom - 1 : ℤ) - 4)) c
  stosw (-1) c.video.numColumns (word (r.2 + 2)) r.1

def lf : Con :=
  if word (c.y + 1) < c.bottom then { c with y := word (c.y + 1), pos := word (c.pos + c.video.sizeRow) }
  else c.scrup

def ri : Con :=
  if c.y > c.top then { c with y := word (c.y - 1 : ℤ), pos := word (c.pos - c.video.sizeRow : ℤ) }
  else c.scrdown

def cr : Con := { c with pos := word (c.pos - 2 * c.x : ℤ), x := 0 }

def del : Con :=
  if c.x ≠ 0 then
    let c := { c with pos := word (c.pos - 2 : ℤ), x := word (c.x - 1 : ℤ) }
    c.poke 2 c.pos c.video.eraseChar
  else c

/-! ## Erasing, inserting and deleting -/

def csiJ (par : ℕ) : Con :=
  match par with
  | 0 => stosw 1 (word (c.scrEnd - c.pos : ℤ) / 2) c.pos c
  | 1 => stosw 1 (word (c.pos - c.origin : ℤ) / 2) c.origin c
  | 2 => stosw 1 (word (c.video.numColumns * c.video.numLines)) c.origin c
  | _ => c

def csiK (par : ℕ) : Con :=
  match par with
  | 0 => if c.x ≥ c.video.numColumns then c else stosw 1 (word (c.video.numColumns - c.x : ℤ)) c.pos c
  | 1 => stosw 1 (if c.x < c.video.numColumns then c.x else c.video.numColumns) (word (c.pos - 2 * c.x : ℤ)) c
  | 2 => stosw 1 c.video.numColumns (word (c.pos - 2 * c.x : ℤ)) c
  | _ => c

def csim : Con :=
  { c with attr := (List.range (c.npar + 1)).foldl (fun attr i => match c.par i with
      | 0 => 0x07
      | 1 => 0x0f
      | 4 => 0x0f
      | 7 => 0x70
      | 27 => 0x07
      | _ => attr) c.attr }

/-- The loop of insert_char, `n` times. -/
def shiftRight : ℕ → ℕ → ℕ → Con → Con
  | 0, _, _, c => c
  | n + 1, p, old, c => shiftRight n (word (p + 2)) (c.mem.load 2 p) (c.poke 2 p old)

def insertChar : Con := shiftRight (c.video.numColumns - c.x) c.pos c.video.eraseChar c

/-- The loop of delete_char, `n` times, and where it ends. -/
def shiftLeft : ℕ → ℕ → Con → Con × ℕ
  | 0, p, c => (c, p)
  | n + 1, p, c => shiftLeft n (word (p + 2)) (c.poke 2 p (c.mem.load 2 (word (p + 2))))

def deleteChar : Con :=
  if c.x ≥ c.video.numColumns then c
  else
    let r := shiftLeft (c.video.numColumns - (c.x + 1)) c.pos c
    r.1.poke 2 r.2 c.video.eraseChar

def insertLine : Con :=
  { ({ c with top := c.y, bottom := c.video.numLines } : Con).scrdown with top := c.top, bottom := c.bottom }

def deleteLine : Con :=
  { ({ c with top := c.y, bottom := c.video.numLines } : Con).scrup with top := c.top, bottom := c.bottom }

/-- `nr` between one and `limit`. -/
def clamp (limit nr : ℕ) : ℕ := if nr > limit then limit else if nr = 0 then 1 else nr

def csiAt (nr : ℕ) : Con := insertChar^[clamp c.video.numColumns nr] c
def csiL (nr : ℕ) : Con := insertLine^[clamp c.video.numLines nr] c
def csiP (nr : ℕ) : Con := deleteChar^[clamp c.video.numColumns nr] c
def csiM (nr : ℕ) : Con := deleteLine^[clamp c.video.numLines nr] c

def saveCur : Con := { c with savedX := c.x, savedY := c.y }

def restoreCur : Con := c.gotoxy c.savedX c.savedY

/-! ## con_write -/

/-- `x` behind the last column goes on in the next line. -/
def wrap : Con :=
  ({ c with x := word (c.x - c.video.numColumns : ℤ), pos := word (c.pos - c.video.sizeRow : ℤ) } : Con).lf

def putChar (ch : BitVec 8) : Con :=
  let c := if c.x ≥ c.video.numColumns then c.wrap else c
  let c := c.poke 2 c.pos (256 * c.attr + ch.toNat)
  { c with pos := word (c.pos + 2), x := word (c.x + 1) }

def tab : Con :=
  let n := 8 - c.x % 8
  let c := { c with x := word (c.x + n), pos := word (c.pos + 2 * n) }
  if c.x > c.video.numColumns then c.wrap else c

/-- State 0; `erase` is the terminal's erase character. -/
def plain (erase ch : BitVec 8) : Con :=
  if 31 < ch.toInt ∧ ch.toInt < 127 then c.putChar ch
  else if ch = 27 then { c with state := 1 }
  else if ch = 10 ∨ ch = 11 ∨ ch = 12 then c.lf
  else if ch = 13 then c.cr
  else if Is ch erase then c.del
  else if ch = 8 then
    if c.x ≠ 0 then { c with x := word (c.x - 1 : ℤ), pos := word (c.pos - 2 : ℤ) } else c
  else if ch = 9 then c.tab
  else c

def char (ch : Char) : BitVec 8 := BitVec.ofNat 8 ch.toNat

/-- State 1. For the digits the source looks at the column `x`, not at the byte. -/
def escape (ch : BitVec 8) : Con :=
  let c := { c with state := 0 }
  if ch = char '[' then { c with state := 2 }
  else if ch = char 'E' then c.gotoxy 0 (word (c.y + 1))
  else if ch = char 'M' then c.ri
  else if ch = char 'D' then c.lf
  else if ch = char 'Z' then c
  else if c.x = (char '7').toNat then c.saveCur
  else if c.x = (char '8').toNat then c.restoreCur
  else c

def setPar (i v : ℕ) : Con := { c with par := Function.update c.par i v }

/-- `if (par[i]) par[i]--;` -/
def parDown (i : ℕ) : Con := if c.par i ≠ 0 then c.setPar i (word (c.par i - 1 : ℤ)) else c

/-- `if (!par[0]) par[0]++;` -/
def parOne : Con := if c.par 0 = 0 then c.setPar 0 1 else c

def setRegion : Con :=
  let c := c.parDown 0
  let c := if c.par 1 = 0 then c.setPar 1 c.video.numLines else c
  if c.par 0 < c.par 1 ∧ c.par 1 ≤ c.video.numLines then { c with top := c.par 0, bottom := c.par 1 } else c

/-- State 4. -/
def final (ch : BitVec 8) : Con :=
  let c := { c with state := 0 }
  if ch = char 'G' ∨ ch = char '\x60' then
    let c := c.parDown 0
    c.gotoxy (c.par 0) c.y
  else if ch = char 'A' then
    let c := c.parOne
    c.gotoxy c.x (word (c.y - c.par 0 : ℤ))
  else if ch = char 'B' ∨ ch = char 'e' then
    let c := c.parOne
    c.gotoxy c.x (word (c.y + c.par 0))
  else if ch = char 'C' ∨ ch = char 'a' then
    let c := c.parOne
    c.gotoxy (word (c.x + c.par 0)) c.y
  else if ch = char 'D' then
    let c := c.parOne
    c.gotoxy (word (c.x - c.par 0 : ℤ)) c.y
  else if ch = char 'E' then
    let c := c.parOne
    c.gotoxy 0 (word (c.y + c.par 0))
  else if ch = char 'F' then
    let c := c.parOne
    c.gotoxy 0 (word (c.y - c.par 0 : ℤ))
  else if ch = char 'd' then
    let c := c.parDown 0
    c.gotoxy c.x (c.par 0)
  else if ch = char 'H' ∨ ch = char 'f' then
    let c := (c.parDown 0).parDown 1
    c.gotoxy (c.par 1) (c.par 0)
  else if ch = char 'J' then c.csiJ (c.par 0)
  else if ch = char 'K' then c.csiK (c.par 0)
  else if ch = char 'L' then c.csiL (c.par 0)
  else if ch = char 'M' then c.csiM (c.par 0)
  else if ch = char 'P' then c.csiP (c.par 0)
  else if ch = char '@' then c.csiAt (c.par 0)
  else if ch = char 'm' then c.csim
  else if ch = char 'r' then c.setRegion
  else if ch = char 's' then c.saveCur
  else if ch = char 'u' then c.restoreCur
  else c

/-- State 3. -/
def params (ch : BitVec 8) : Con :=
  if ch = char ';' ∧ c.npar < NPAR - 1 then { c with npar := c.npar + 1 }
  else if (char '0').toNat ≤ ch.toNat ∧ ch.toNat ≤ (char '9').toNat then
    c.setPar c.npar (word (10 * c.par c.npar + ch.toNat - (char '0').toNat : ℤ))
  else ({ c with state := 4 } : Con).final ch

/-- State 2. -/
def start (ch : BitVec 8) : Con :=
  let c := { c with par := fun i => if i < NPAR then 0 else c.par i, npar := 0, state := 3, ques := ch = char '?' }
  if c.ques then c else c.params ch

def byte (erase ch : BitVec 8) : Con :=
  match c.state with
  | 0 => c.plain erase ch
  | 1 => c.escape ch
  | 2 => c.start ch
  | 3 => c.params ch
  | 4 => c.final ch
  | _ => c

end Con

/-! ## con_init -/

/-- What setup.s left behind for con_init. -/
structure Setup where
  origX : BitVec 8
  origY : BitVec 8
  videoMode : BitVec 8
  videoCols : BitVec 8
  egaBx : BitVec 16

namespace Setup

variable (s : Setup)

def isEga : Bool := s.egaBx &&& 0xff ≠ 0x10

def video : Video where
  type := if s.videoMode = 7 then (if s.isEga then .EGAM else .MDA) else (if s.isEga then .EGAC else .CGA)
  numColumns := s.videoCols.toNat
  sizeRow := s.videoCols.toNat * 2
  numLines := 25
  memStart := if s.videoMode = 7 then 0xb0000 else 0xb8000
  memEnd :=
    if s.videoMode = 7 then (if s.isEga then 0xb8000 else 0xb2000) else (if s.isEga then 0xbc000 else 0xba000)
  eraseChar := 0x0720

def displayDesc : List Char :=
  if s.videoMode = 7 then (if s.isEga then ['E', 'G', 'A', 'm'] else ['*', 'M', 'D', 'A'])
  else (if s.isEga then ['E', 'G', 'A', 'c'] else ['*', 'C', 'G', 'A'])

/-- The name of the display, in every other byte. -/
def writeDesc : List Char → ℕ → Con → Con
  | [], _, c => c
  | ch :: l, p, c => writeDesc l (p + 2) (c.poke 1 p ch.toNat)

/-- The console's variables before con_init, but for the geometry. -/
def boot (mem : Bytes) (crtc : ℕ → ℕ) : Con where
  video := s.video
  mem := mem
  stores := []
  crtc := crtc
  origin := 0
  scrEnd := 0
  pos := 0
  x := 0
  y := 0
  top := 0
  bottom := 0
  state := 0
  npar := 0
  par _ := 0
  ques := false
  attr := 0x07
  savedX := 0
  savedY := 0

/-- con_init, with the memory as it is. -/
def conInit (mem : Bytes) (crtc : ℕ → ℕ) : Con :=
  let v := s.video
  let c := writeDesc s.displayDesc (v.memStart + v.sizeRow - 8) (s.boot mem crtc)
  let c := { c with
    origin := v.memStart, scrEnd := word (v.memStart + v.numLines * v.sizeRow), top := 0, bottom := v.numLines }
  c.gotoxy s.origX.toNat s.origY.toNat

end Setup

inductive ConEvent
  /-- con_write takes a byte from the write queue. -/
  | byte (erase ch : BitVec 8)
  /-- con_write has no more bytes. -/
  | done

def Con.run (c : Con) : ConEvent → Con
  | .byte erase ch => c.byte erase ch
  | .done => c.setCursor

/-- At least eight columns, a screen that fits into video memory, and the cursor on it. -/
def Setup.Fits (s : Setup) : Prop :=
  8 ≤ s.video.numColumns ∧ s.video.memStart + 25 * s.video.sizeRow ≤ s.video.memEnd ∧
    s.origX.toNat ≤ s.video.numColumns ∧ s.origY.toNat < s.video.numLines

def console : Lts Con ConEvent where
  init c := ∃ s : Setup, s.Fits ∧ ∃ mem crtc, c = s.conInit mem crtc
  step c e c' := c' = c.run e

end Linux011.Chr
