/-
  Scripts. `Shebang` is the line after `#!` in its own terms, and `scriptLine` finds exactly that.
  What the interpreter gets is right when there is an `argv[0]` to take away; without one `argc` is
  one too small, and the last argument becomes the first string of the environment.
-/
import Linux011.Exec.Layout

namespace Linux011.Exec

open Linux011.Lib
open Linux011.Mm (Mem MemInv)

variable {lo hi : ℕ} {own : Finset ℕ} {t : ℕ} {i j : Fin 32} {s : Kern}

/-! ## The line -/

/-- `name` is what follows the last slash of `word`. -/
def LastComponent (word name : List UInt8) : Prop :=
  (47 : UInt8) ∉ name ∧ (name = word ∨ ∃ dirs, word = dirs ++ 47 :: name)

/-- The bytes after `#!`: blanks, a word, what follows it after one separator, and a newline. -/
structure Shebang (b : Fs.Block) (word name : List UInt8) (rest : Option (List UInt8)) : Prop where
  line : ∃ blanks tail more, (List.range 1022).map (fun k => b (2 + k)) = (blanks ++ (word ++ tail)) ++ 10 :: more ∧
    (0 : UInt8) ∉ blanks ++ (word ++ tail) ∧ (10 : UInt8) ∉ blanks ++ (word ++ tail) ∧ (∀ c ∈ blanks, Fs.blank c = true) ∧
    (rest = none ∧ tail = [] ∨ ∃ sep r, Fs.blank sep = true ∧ rest = some r ∧ tail = sep :: r)
  nonempty : word ≠ []
  solid : ∀ c ∈ word, Fs.blank c = false
  component : LastComponent word name

/-- The split of a list where `p` ends. -/
theorem span_eq {α : Type} {p : α → Bool} {l r : List α} (hl : ∀ a ∈ l, p a = true) (hr : ∀ a ∈ r.head?, p a = false) :
    (l ++ r).takeWhile p = l ∧ (l ++ r).dropWhile p = r := by
  induction l with
  | nil =>
    cases r with
    | nil => exact ⟨rfl, rfl⟩
    | cons a r =>
      have ha := hr a rfl
      constructor
      · rw [List.nil_append, List.takeWhile_cons, ha]
        rfl
      · rw [List.nil_append, List.dropWhile_cons, ha]
        rfl
  | cons a l ih =>
    have ha := hl a List.mem_cons_self
    obtain ⟨h1, h2⟩ := ih fun c hc => hl c (List.mem_cons_of_mem a hc)
    constructor
    · rw [List.cons_append, List.takeWhile_cons, ha, if_pos rfl, h1]
    · rw [List.cons_append, List.dropWhile_cons, ha, if_pos rfl, h2]

/-- Where `p` ends, it fails. -/
theorem head_dropWhile {α : Type} (p : α → Bool) (l : List α) : ∀ a ∈ (l.dropWhile p).head?, p a = false := by
  intro a ha
  have := List.head?_dropWhile_not p l
  rw [Option.mem_def.mp ha] at this
  simpa using this

theorem nameIn_spec (n l : List UInt8) :
    (47 : UInt8) ∉ l ∧ nameIn n l = n ∨ (47 : UInt8) ∉ nameIn n l ∧ ∃ dirs, l = dirs ++ 47 :: nameIn n l := by
  induction l generalizing n with
  | nil => exact Or.inl ⟨List.not_mem_nil, rfl⟩
  | cons c cs ih =>
    rw [nameIn]
    obtain ⟨hno, he⟩ | ⟨hno, dirs, he⟩ := ih (if c = 47 then cs else n)
    · rw [he]
      by_cases hc : c = 47
      · rw [if_pos hc, hc]
        exact Or.inr ⟨hno, [], rfl⟩
      · rw [if_neg hc]
        exact Or.inl ⟨fun hm => (List.mem_cons.mp hm).elim (fun h => hc h.symm) hno, rfl⟩
    · exact Or.inr ⟨hno, c :: dirs, by rw [List.cons_append, ← he]⟩

theorem lastComponent_unique {word name name' : List UInt8} (h : LastComponent word name) (h' : LastComponent word name') :
    name = name' := by
  obtain ⟨hn, he⟩ := h
  obtain ⟨hn', he'⟩ := h'
  have hrev : ∀ {w n : List UInt8}, (47 : UInt8) ∉ n → (n = w ∨ ∃ d, w = d ++ 47 :: n) →
      w.reverse.takeWhile (· ≠ 47) = n.reverse := by
    rintro w n hno (rfl | ⟨d, rfl⟩)
    · have := (span_eq (p := fun c : UInt8 => decide (c ≠ 47)) (l := n.reverse) (r := [])
        (fun a ha => decide_eq_true fun h => hno (h ▸ List.mem_reverse.mp ha)) nofun).1
      rwa [List.append_nil] at this
    · rw [List.reverse_append, List.reverse_cons, List.append_assoc]
      refine (span_eq (p := fun c : UInt8 => decide (c ≠ 47)) (fun a ha => ?_) fun a ha => ?_).1
      · exact decide_eq_true fun h => hno (h ▸ List.mem_reverse.mp ha)
      · cases ha
        rfl
  exact List.reverse_injective ((hrev hn he).symm.trans (hrev hn' he'))

theorem nameIn_iff {word name : List UInt8} : nameIn word word = name ↔ LastComponent word name := by
  have hself : LastComponent word (nameIn word word) := by
    obtain ⟨hno, he⟩ | ⟨hno, hd⟩ := nameIn_spec word word
    · exact ⟨by rwa [he], Or.inl he⟩
    · exact ⟨hno, Or.inr hd⟩
  refine ⟨fun he => he ▸ hself, fun h => lastComponent_unique hself h⟩

/-- The word of a line and what follows it, if there is one. -/
def lineOf (text : List UInt8) : Option Line :=
  let cp := text.dropWhile Fs.blank
  if cp = [] then none
  else
    let interp := cp.takeWhile fun c => ! Fs.blank c
    let iArg := match cp.dropWhile fun c => ! Fs.blank c with
      | [] => none
      | _ :: arg => some arg
    some ⟨interp, nameIn interp interp, iArg⟩

theorem scriptLine_eq {b : Fs.Block} {text more : List UInt8} (hb : (List.range 1022).map (fun k => b (2 + k)) = text ++ 10 :: more)
    (h0 : (0 : UInt8) ∉ text) (h10 : (10 : UInt8) ∉ text) : scriptLine b = lineOf text := by
  have hbuf : (text ++ 10 :: more).takeWhile (fun c => decide (c ≠ 0)) = text ++ 10 :: more.takeWhile fun c => decide (c ≠ 0) := by
    rw [List.takeWhile_append_of_pos (p := fun c : UInt8 => decide (c ≠ 0)) fun c hc => decide_eq_true fun h => h0 (h ▸ hc)]
    rfl
  have htext : ∀ l, (text ++ 10 :: l).takeWhile (fun c => decide (c ≠ 10)) = text := fun l =>
    (span_eq (p := fun c : UInt8 => decide (c ≠ 10)) (fun c hc => decide_eq_true fun h => h10 (h ▸ hc))
      fun c hc => by cases hc; rfl).1
  unfold scriptLine
  rw [hb]
  dsimp only
  rw [hbuf, htext, if_pos (List.mem_append_right text List.mem_cons_self)]
  rfl

/-- Without a newline there is no line. -/
theorem scriptLine_none {b : Fs.Block} (h : ∀ text more, (List.range 1022).map (fun k => b (2 + k)) = text ++ 10 :: more →
    (0 : UInt8) ∈ text ∨ (10 : UInt8) ∈ text) : scriptLine b = none := by
  unfold scriptLine
  dsimp only
  rw [if_neg]
  intro hm
  generalize (List.range 1022).map (fun k => b (2 + k)) = full at h hm
  have hfull := List.takeWhile_append_dropWhile (p := fun c : UInt8 => decide (c ≠ 0)) (l := full)
  have hbuf : ∀ c ∈ full.takeWhile fun c => decide (c ≠ 0), c ≠ 0 := fun c hc => of_decide_eq_true (List.all_eq_true.mp List.all_takeWhile c hc)
  obtain ⟨text, more, he, hno⟩ := List.eq_append_cons_of_mem hm
  rw [he, List.append_assoc, List.cons_append] at hfull
  rcases h text _ hfull.symm with h0 | h10
  · exact hbuf 0 (he ▸ List.mem_append_left _ h0) rfl
  · exact hno h10

/-- What the bytes of a line are cut into. -/
theorem lineOf_iff {text word name : List UInt8} {rest : Option (List UInt8)} : lineOf text = some ⟨word, name, rest⟩ ↔
    (∃ blanks tail, text = blanks ++ (word ++ tail) ∧ (∀ c ∈ blanks, Fs.blank c = true) ∧
      (rest = none ∧ tail = [] ∨ ∃ sep r, Fs.blank sep = true ∧ rest = some r ∧ tail = sep :: r)) ∧
    word ≠ [] ∧ (∀ c ∈ word, Fs.blank c = false) ∧ LastComponent word name := by
  constructor
  · intro h
    unfold lineOf at h
    dsimp only at h
    have htext := List.takeWhile_append_dropWhile (p := Fs.blank) (l := text)
    have hblank : ∀ c ∈ text.takeWhile Fs.blank, Fs.blank c = true := fun c hc =>
      List.all_eq_true.mp List.all_takeWhile c hc
    have hfirst := head_dropWhile Fs.blank text
    generalize text.dropWhile Fs.blank = cp at h htext hfirst
    by_cases hcp : cp = []
    · rw [if_pos hcp] at h
      cases h
    rw [if_neg hcp] at h
    have hsplit := List.takeWhile_append_dropWhile (p := fun c => ! Fs.blank c) (l := cp)
    have hsolid : ∀ c ∈ cp.takeWhile fun c => ! Fs.blank c, Fs.blank c = false := fun c hc =>
      (Bool.not_eq_true' _).mp (List.all_eq_true.mp List.all_takeWhile c hc)
    have hsep := head_dropWhile (fun c => ! Fs.blank c) cp
    have hword : cp.takeWhile (fun c => ! Fs.blank c) ≠ [] := by
      cases cp with
      | nil => exact absurd rfl hcp
      | cons c cs =>
        rw [List.takeWhile_cons, hfirst c rfl]
        exact List.cons_ne_nil _ _
    generalize cp.takeWhile (fun c => ! Fs.blank c) = w at h hsplit hsolid hword
    generalize cp.dropWhile (fun c => ! Fs.blank c) = tail at h hsplit hsep
    cases h
    refine ⟨⟨_, tail, by rw [hsplit, htext], hblank, ?_⟩, hword, hsolid, nameIn_iff.mp rfl⟩
    cases tail with
    | nil => exact Or.inl ⟨rfl, rfl⟩
    | cons sep r => exact Or.inr ⟨sep, r, by simpa using hsep sep rfl, rfl, rfl⟩
  · rintro ⟨⟨blanks, tail, rfl, hblank, htail⟩, hword, hsolid, hname⟩
    have hcp : (blanks ++ (word ++ tail)).dropWhile Fs.blank = word ++ tail := by
      refine (span_eq hblank fun a ha => ?_).2
      cases word with
      | nil => exact absurd rfl hword
      | cons w ws =>
        exact Option.some.inj ha ▸ hsolid w List.mem_cons_self
    obtain ⟨hw, ht⟩ : (word ++ tail).takeWhile (fun c => ! Fs.blank c) = word ∧
        (word ++ tail).dropWhile (fun c => ! Fs.blank c) = tail := by
      refine span_eq (p := fun c => ! Fs.blank c) (fun c hc => by rw [hsolid c hc]; rfl) fun c hc => ?_
      rcases htail with ⟨-, rfl⟩ | ⟨sep, r, hsep, -, rfl⟩
      · cases hc
      · cases hc
        rw [hsep]
        rfl
    unfold lineOf
    dsimp only
    rw [hcp, hw, ht, if_neg fun he => hword (List.append_eq_nil_iff.mp he).1, nameIn_iff.mpr hname]
    rcases htail with ⟨rfl, rfl⟩ | ⟨sep, r, -, rfl, rfl⟩ <;> rfl

/-- The parser of `do_execve` finds the line of the script. -/
theorem scriptLine_iff {b : Fs.Block} {word name : List UInt8} {rest : Option (List UInt8)} :
    scriptLine b = some ⟨word, name, rest⟩ ↔ Shebang b word name rest := by
  constructor
  · intro h
    by_cases hex : ∃ text more, (List.range 1022).map (fun k => b (2 + k)) = text ++ 10 :: more ∧ (0 : UInt8) ∉ text ∧
        (10 : UInt8) ∉ text
    · obtain ⟨text, more, hb, h0, h10⟩ := hex
      rw [scriptLine_eq hb h0 h10] at h
      obtain ⟨⟨blanks, tail, rfl, hblank, htail⟩, hword, hsolid, hname⟩ := lineOf_iff.mp h
      exact ⟨⟨blanks, tail, more, hb, h0, h10, hblank, htail⟩, hword, hsolid, hname⟩
    · rw [scriptLine_none fun text more hb => not_and_or.mp (fun hno => hex ⟨text, more, hb, hno⟩) |>.imp
        not_not.mp not_not.mp] at h
      cases h
  · rintro ⟨⟨blanks, tail, more, hb, h0, h10, hblank, htail⟩, hword, hsolid, hname⟩
    rw [scriptLine_eq hb h0 h10]
    exact lineOf_iff.mpr ⟨⟨blanks, tail, rfl, hblank, htail⟩, hword, hsolid, hname⟩

/-- At most one word. -/
theorem Shebang.unique {b : Fs.Block} {word word' name name' : List UInt8} {rest rest' : Option (List UInt8)}
    (h : Shebang b word name rest) (h' : Shebang b word' name' rest') : word = word' ∧ name = name' ∧ rest = rest' := by
  have he := (scriptLine_iff.mpr h).symm.trans (scriptLine_iff.mpr h')
  cases he
  exact ⟨rfl, rfl, rfl⟩

/-! ## The strings of the interpreter -/

/-- The argument vector of the interpreter. -/
def vector (name : List UInt8) (rest : Option (List UInt8)) (filename : List UInt8) (argv : List (List UInt8)) :
    List (List UInt8) :=
  [name] ++ rest.toList ++ [filename] ++ argv.tail

theorem area_script (word name : List UInt8) (rest : Option (List UInt8)) (filename : List UInt8)
    (argv envp : List (List UInt8)) :
    area (scriptCalls ⟨word, name, rest⟩ filename argv envp) = bytes (vector name rest filename argv ++ envp) := by
  have hone : ∀ str : List UInt8, ([str] : List (List UInt8)).take (1 : ℤ).toNat = [str] := fun _ => rfl
  have hall : ∀ strs : List (List UInt8), strs.take (strs.length : ℤ).toNat = strs := fun strs => List.take_length
  have htail : argv.tail.take ((argv.length : ℤ) - 1).toNat = argv.tail := by
    refine List.take_of_length_le ?_
    have := List.length_tail (l := argv)
    omega
  unfold scriptCalls vector
  cases rest with
  | none =>
    simp only [argCalls, List.append_nil, List.cons_append, List.nil_append, area, ArgCall.bytes, hone, hall, htail,
      Option.toList, ← bytes_append]
  | some r =>
    simp only [argCalls, List.cons_append, List.nil_append, area, ArgCall.bytes, hone, hall, htail,
      Option.toList, ← bytes_append]

/-- The strings of the line end where their `NUL` is. -/
theorem Shebang.no_zero {b : Fs.Block} {word name : List UInt8} {rest : Option (List UInt8)} (h : Shebang b word name rest) :
    (0 : UInt8) ∉ name ∧ ∀ r ∈ rest, (0 : UInt8) ∉ r := by
  obtain ⟨blanks, tail, more, -, h0, -, -, htail⟩ := h.line
  have hword : (0 : UInt8) ∉ word := fun hm => h0 (List.mem_append_right _ (List.mem_append_left _ hm))
  constructor
  · obtain ⟨-, rfl | ⟨dirs, he⟩⟩ := h.component
    · exact hword
    · exact fun hm => hword (he ▸ List.mem_append_right _ (List.mem_cons_of_mem _ hm))
  · rintro r hr hm
    obtain ⟨rfl, -⟩ | ⟨sep, r', -, rfl, rfl⟩ := htail
    · cases hr
    · cases hr
      exact h0 (List.mem_append_right _ (List.mem_append_right _ (List.mem_cons_of_mem _ hm)))

/-- `argc` is the length of the vector, if there is an `argv[0]` to leave out. -/
theorem scriptArgc_eq (word name : List UInt8) (rest : Option (List UInt8)) (filename : List UInt8)
    (argv : List (List UInt8)) : (scriptArgc ⟨word, name, rest⟩ argv.length).toNat =
      if argv = [] then (vector name rest filename argv).length - 1 else (vector name rest filename argv).length := by
  unfold scriptArgc vector
  cases rest <;> cases argv <;> simp [argCalls] <;> omega

/-! ## execve of a script -/

def firstBlock (k : Fs.Kern) (i : Fin 32) : Fs.Block := (k.disk (k.inode i).dev).block ((k.inode i).zone 0)

/-- A path that names a script. -/
structure Script (filename : List UInt8) (i : Fin 32) (k k₁ k₂ : Fs.Kern) : Prop where
  found : Fs.namei filename k = .ok (some i) k₁
  regular : Fs.isReg (k₁.inode i).mode
  mayRun : Fs.mayRun k₁.cur (k₁.inode i)
  dev : (k₁.inode i).dev ≠ 0
  bcount : k₁.bcount (k₁.inode i).dev ((k₁.inode i).zone 0) ≠ 255
  magic : firstBlock k₁ i 0 = 35 ∧ firstBlock k₁ i 1 = 33
  dropped : Fs.iput (some i) k₁ = .ok () k₂

/-- `do_execve` of a script, up to the line. -/
theorem doExecve_script {k₁ k₂ : Fs.Kern} {cs : ℕ} {filename : List UInt8} (hcs : cs % 65536 = 0x000f) (hfs : s.fs = .user)
    (h : Script filename i s.fsys k₁ k₂) (argv envp : List (List UInt8)) :
    doExecve cs filename argv envp s = (match scriptLine (firstBlock k₁ i) with
      | none => execError1 (-Fs.eNOEXEC)
      | some line => do
        let p ← copyAll (scriptCalls line filename argv envp) argTop
        if p = 0 then execError1 (-Fs.eNOMEM)
        else do
          let s ← Prog.get
          setFs .kernel
          let r ← namei .kernel line.interp
          setFs s.fs
          match r with
          | none => execError1 (-Fs.eNOENT)
          | some i => execInode filename argv envp (fun _ _ _ => Prog.halt (.fs .hang)) true p (scriptArgc line argv.length) i)
      { s with page := fun _ => 0, fsys := k₂ } := by
  set s₀ : Kern := { s with page := fun _ => 0, fsys := k₁ } with hs₀
  obtain ⟨s₁, hread, hdisk, hrelse⟩ := first_run (s := s₀) rfl h.dev h.bcount
  have hput : fsys (Fs.iput (some i)) s₀ = .ok () { s with page := fun _ => 0, fsys := k₂ } := by
    unfold fsys
    rw [hs₀]
    dsimp only
    rw [h.dropped]
  unfold doExecve
  rw [if_neg (not_not.mpr hcs)]
  generalize execInode filename argv envp (fun _ _ _ => Prog.halt (.fs .hang)) true = restart
  refine (Prog.bind_run (show Prog.modify _ s = .ok () { s with page := fun _ => 0 } from rfl)).trans ?_
  have hn : namei .user filename { s with page := fun _ => 0 } = .ok (some i) s₀ := namei_run hfs h.found
  refine (Prog.bind_run hn).trans ?_
  unfold execInode
  refine (Prog.bind_run (Prog.get_run s₀)).trans ?_
  rw [if_neg (not_not.mpr h.regular), if_neg (not_not.mpr h.mayRun)]
  refine (Prog.bind_run hread).trans ?_
  rw [if_pos rfl]
  refine (Prog.bind_run (Prog.get_run s₁)).trans ((Prog.bind_run hrelse).trans ?_)
  rw [hdisk]
  dsimp only
  have hblock : (s₀.fsys.disk (s₀.fsys.inode i).dev).block ((s₀.fsys.inode i).zone 0) = firstBlock k₁ i := rfl
  rw [hblock, if_pos ⟨h.magic.1, h.magic.2, Bool.false_ne_true⟩]
  refine (Prog.bind_run hput).trans ?_
  cases scriptLine (firstBlock k₁ i) with
  | none => rfl
  | some line => rfl

/-- The vector, without its last string if there is no `argv[0]`. -/
def given (name : List UInt8) (rest : Option (List UInt8)) (filename : List UInt8) (argv envp : List (List UInt8)) :
    List (List UInt8) :=
  (vector name rest filename argv ++ envp).take
    (if argv = [] then (vector name rest filename argv).length - 1 else (vector name rest filename argv).length)

/-- As many strings behind them as the environment has. -/
def environment (name : List UInt8) (rest : Option (List UInt8)) (filename : List UInt8) (argv envp : List (List UInt8)) :
    List (List UInt8) :=
  ((vector name rest filename argv ++ envp).drop (given name rest filename argv envp).length).take envp.length

/-- The interpreter starts, with what `argc` takes for its arguments and its environment. -/
theorem script_run {k₁ k₂ k₃ k₄ k₅ : Fs.Kern} {cs : ℕ} {filename : List UInt8} (hcs : cs % 65536 = 0x000f)
    (h : MemInv lo hi s.mm own) (hs : Segments t s) (hfs : s.fs = .user) (hsc : Script filename i s.fsys k₁ k₂)
    (argv envp : List (List UInt8)) (h0 : ∀ str ∈ filename :: argv ++ envp, (0 : UInt8) ∉ str)
    {word name : List UInt8} {rest : Option (List UInt8)} (hline : Shebang (firstBlock k₁ i) word name rest)
    (hprog : Program word j k₂ k₃ k₄ k₅) (hn : (bytes (vector name rest filename argv ++ envp)).length < argTop)
    (hroom : 0x4000 - stackPointer (vector name rest filename argv) envp / 4096 + 3 ≤ avail s.mm) :
    ∃ s' sp ptr, doExecve cs filename argv envp s = .ok 0 s' ∧ s'.ip = (headerOf k₃ j).aEntry ∧
      s'.fsys.cur.executable = some j ∧ s'.sp = BitVec.ofNat 32 sp ∧ sp < 0x4000000 ∧
      Layout s'.mm t sp ptr (given name rest filename argv envp) (environment name rest filename argv envp) := by
  set all := vector name rest filename argv ++ envp with hall
  set n := if argv = [] then (vector name rest filename argv).length - 1 else (vector name rest filename argv).length with hnd
  have hnle : n ≤ (vector name rest filename argv).length := by
    rw [hnd]
    split_ifs
    · exact Nat.sub_le _ _
    · exact le_rfl
  have hlall : all.length = (vector name rest filename argv).length + envp.length := List.length_append
  have hgiven : given name rest filename argv envp = all.take n := rfl
  have hglen : (all.take n).length = n := by
    rw [List.length_take]
    exact min_eq_left (hlall ▸ hnle.trans (Nat.le_add_right _ _))
  have henv : environment name rest filename argv envp = (all.drop n).take envp.length := by
    unfold environment
    rw [hgiven, hglen]
  have helen : ((all.drop n).take envp.length).length = envp.length := by
    rw [List.length_take, List.length_drop]
    exact min_eq_left (Nat.le_sub_of_add_le' (hlall ▸ Nat.add_le_add_right hnle _))
  rw [hgiven, henv]
  set args := all.take n with hargs'
  set envs := (all.drop n).take envp.length with henvs
  have hcat : args ++ envs = all.take (n + envp.length) := by rw [hargs', henvs, ← List.take_add]
  have hpre : bytes all = bytes (args ++ envs) ++ bytes (all.drop (n + envp.length)) := by
    rw [hcat, ← bytes_append, List.take_append_drop]
  have hle : (bytes (args ++ envs)).length ≤ (bytes all).length := by
    rw [hpre, List.length_append]
    exact Nat.le_add_right _ _
  set p := argTop - (bytes all).length with hp
  set sp := tableStart (0x3FE0000 + p) args.length envs.length with hsp
  -- so the tables are below 1 MB
  have hplace : StackPlace p args.length envs.length sp := by
    refine tableStart_place ((Nat.add_le_add_right ?_ p).trans (Nat.add_sub_cancel' hn.le).le)
    rw [hglen, helen]
    exact (hlall ▸ Nat.add_le_add_right hnle _).trans (length_le_bytes all)
  have hroom' : 0x4000 - sp / 4096 + 3 ≤ avail s.mm := by
    refine (Nat.add_le_add_right (Nat.sub_le_sub_left (Nat.div_le_div_right ?_) _) 3).trans hroom
    rw [hsp, hglen, helen]
    exact tableStart_anti _ _ hnle
  -- the strings
  have hcopy := copyAll_fits (scriptCalls_ok ⟨word, name, rest⟩ filename argv envp)
    (Args.start (s := { s with page := fun _ => 0, fsys := k₂, fs := .user }) h fun _ => rfl)
  rw [area_script, ← hall, ← hp] at hcopy
  obtain ⟨s2, e2, ha2, hb2, hf2, hbytes⟩ := hcopy hn.le ((hplace.pages.trans (Nat.le_add_right _ 3)).trans hroom')
  unfold Beside at hb2
  have hfsys2 : s2.fsys = k₂ := by rw [hb2]
  have hldt2 : s2.ldt = s.ldt := by rw [hb2]
  have hend2 : s2.endData = s.endData := by rw [hb2]
  -- the interpreter
  set s3 : Kern := { s2 with fsys := k₃ } with hs3
  have hcur : k₃.current = s.fsys.current := by
    have hput := (Fs.Leaves.ok (Fs.iput_leaves (some i)) hsc.dropped).current
    rw [((Fs.namei_leaves word).ok hprog.found).current, hput, ((Fs.namei_leaves filename).ok hsc.found).current]
  have hseg : Segments t s3 := by
    refine ⟨hs.task, ?_, ?_, ?_, ?_, ?_, ?_, ?_⟩
    · exact (congrArg Fin.val hcur).trans hs.cur
    · exact hldt2 ▸ hs.code
    · exact hldt2 ▸ hs.data
    · exact hldt2 ▸ hs.codeLimit
    · exact hldt2 ▸ hs.dataLimit
    · change ∀ k < 16, Mm.slots s2.ldt.data.getLimit.toNat ≤ k → (s2.mm.dir (16 * t + k)).present = false
      rw [hldt2, ha2.dir]
      exact hs.beyond
    · exact hend2 ▸ hs.endData
  obtain ⟨euid, egid, hrun⟩ := execInode_loadable (s := s3) rfl hprog.loadable filename argv envp
    (fun _ _ _ => Prog.halt (.fs .hang)) true p (scriptArgc ⟨word, name, rest⟩ argv.length)
  rw [if_pos rfl, scriptArgc_eq, ← hnd, ← hglen, ← helen] at hrun
  have hmem : ∀ str ∈ args ++ envs, (0 : UInt8) ∉ str := by
    rw [hcat]
    intro str hstr
    have hin := List.mem_of_mem_take hstr
    rw [hall] at hin
    unfold vector at hin
    simp only [List.mem_append, List.mem_singleton, Option.mem_toList] at hin
    obtain (((rfl | hin) | rfl) | hin) | hin := hin
    · exact hline.no_zero.1
    · exact hline.no_zero.2 str hin
    · exact h0 _ List.mem_cons_self
    · exact h0 _ (List.mem_cons_of_mem _ (List.mem_append_left _ (List.mem_of_mem_tail hin)))
    · exact h0 _ (List.mem_cons_of_mem _ (List.mem_append_right _ hin))
  have hfront : ∀ m (_ : m < (bytes (args ++ envs)).length), s3.argByte (p + m) = (bytes (args ++ envs))[m].toNat := by
    intro m hm
    refine (hbytes m (hm.trans_le hle)).trans ?_
    simp only [hpre, List.getElem_append_left hm]
  have ha3 : Args lo hi own s.mm p s3 := ha2.beside rfl rfl
  have hfit : p + (bytes (args ++ envs)).length ≤ argTop := (Nat.add_le_add_left hle p).trans (Nat.sub_add_cancel hn.le).le
  obtain ⟨s', e3, htab, hsp', hip, hexe⟩ := install_spec (a := sp / 4096) hprog.size args envs hmem hseg hprog.handover
    ha3 hfit hsp hplace.low (Nat.mul_div_le ..) hroom' hfront euid egid
  have htop : 0x3FE0000 + p + (bytes (args ++ envs)).length ≤ 0x4000000 :=
    Nat.add_assoc .. ▸ (Nat.add_le_add_left hfit 0x3FE0000).trans (by decide)
  refine ⟨s', sp, _, ?_, hip, hexe, hsp', hplace.high, htab.layout hplace.aligned hplace.tables htop⟩
  rw [doExecve_script hcs hfs hsc, scriptLine_iff.mpr hline]
  have hname : namei .kernel word { s2 with fs := .kernel } = .ok (some j) { s3 with fs := .kernel } :=
    namei_run rfl (hfsys2 ▸ hprog.found)
  rw [← hfs] at e2
  refine (Prog.bind_run e2).trans ?_
  rw [if_neg (Nat.sub_ne_zero_of_lt hn)]
  refine (Prog.bind_run (Prog.get_run s2)).trans ?_
  refine (Prog.bind_run (show setFs .kernel s2 = .ok () { s2 with fs := .kernel } from rfl)).trans ?_
  refine (Prog.bind_run hname).trans ?_
  refine (Prog.bind_run (show setFs s2.fs { s3 with fs := .kernel } = .ok () s3 from rfl)).trans ?_
  exact hrun.trans e3

/-- Without a line the pages are given back, and there are none. -/
theorem script_rejected {k₁ k₂ : Fs.Kern} {cs : ℕ} {filename : List UInt8} (hcs : cs % 65536 = 0x000f)
    (h : MemInv lo hi s.mm own) (hfs : s.fs = .user) (hsc : Script filename i s.fsys k₁ k₂) (argv envp : List (List UInt8))
    (hline : ¬ ∃ word name rest, Shebang (firstBlock k₁ i) word name rest) :
    ∃ s', doExecve cs filename argv envp s = .ok (-Fs.eNOEXEC) s' := by
  have hnone : scriptLine (firstBlock k₁ i) = none := by
    rw [Option.eq_none_iff_forall_ne_some]
    rintro ⟨word, name, rest⟩ he
    exact hline ⟨word, name, rest, scriptLine_iff.mp he⟩
  set s1 : Kern := { s with page := fun _ => 0, fsys := k₂ } with hs1
  have hargs : Args lo hi own s.mm argTop s1 := Args.start (s := s1) h fun _ => rfl
  obtain ⟨s', he, -⟩ := freeArgs_spec hargs
  rw [doExecve_script hcs hfs hsc, hnone]
  exact ⟨s', execError1_run he _⟩

theorem given_eq {name : List UInt8} {rest : Option (List UInt8)} {filename : List UInt8} {argv envp : List (List UInt8)}
    (h : argv ≠ []) : given name rest filename argv envp = vector name rest filename argv := by
  unfold given
  rw [if_neg h, List.take_left]

theorem environment_eq {name : List UInt8} {rest : Option (List UInt8)} {filename : List UInt8} {argv envp : List (List UInt8)}
    (h : argv ≠ []) : environment name rest filename argv envp = envp := by
  unfold environment
  rw [given_eq h, List.drop_left, List.take_length]

theorem given_short {name : List UInt8} {rest : Option (List UInt8)} {filename : List UInt8} {envp : List (List UInt8)} :
    (given name rest filename [] envp).length ≠ (vector name rest filename []).length := by
  unfold given
  rw [if_pos rfl, List.length_take, List.length_append]
  have : 0 < (vector name rest filename []).length := by
    unfold vector
    simp
  omega

/-- The stack pointer says how many arguments there are. -/
theorem Layout.args_length {mm : Mem} {sp sp' : ℕ} {ptr ptr' : ℕ → ℕ} {args args' envs envs' : List (List UInt8)}
    (h : Layout mm t sp ptr args envs) (h' : Layout mm t sp' ptr' args' envs') (hsp : sp < 0x4000000) (hsp' : sp' < 0x4000000)
    (he : BitVec.ofNat 32 sp = BitVec.ofNat 32 sp') : args.length = args'.length := by
  have heq := congrArg BitVec.toNat he
  rw [BitVec.toNat_ofNat, BitVec.toNat_ofNat, Nat.mod_eq_of_lt (by omega), Nat.mod_eq_of_lt (by omega)] at heq
  subst heq
  exact Option.some.inj (h.argc.symm.trans h'.argc)

/-- What is to happen to a script: its interpreter runs, or there is none. -/
def RunsScript (cs t : ℕ) (i : Fin 32) (k₁ k₂ : Fs.Kern) (filename : List UInt8) (argv envp : List (List UInt8)) (s : Kern) : Prop :=
  (∀ word name rest, Shebang (firstBlock k₁ i) word name rest → ∀ j k₃ k₄ k₅, Program word j k₂ k₃ k₄ k₅ →
    ∃ s' sp ptr, doExecve cs filename argv envp s = .ok 0 s' ∧ s'.ip = (headerOf k₃ j).aEntry ∧
      s'.fsys.cur.executable = some j ∧ s'.sp = BitVec.ofNat 32 sp ∧ sp < 0x4000000 ∧
      Layout s'.mm t sp ptr (vector name rest filename argv) envp) ∧
  ((¬ ∃ word name rest, Shebang (firstBlock k₁ i) word name rest) →
    ∃ s', doExecve cs filename argv envp s = .ok (-Fs.eNOEXEC) s')

/-- Where the line names a program, and its strings and their pages fit. -/
structure Fits (i : Fin 32) (k₁ k₂ : Fs.Kern) (filename : List UInt8) (argv envp : List (List UInt8)) (mm : Mem) : Prop where
  program : ∀ word name rest, Shebang (firstBlock k₁ i) word name rest → ∃ j k₃ k₄ k₅, Program word j k₂ k₃ k₄ k₅
  bytes : ∀ word name rest, Shebang (firstBlock k₁ i) word name rest →
    (bytes (vector name rest filename argv ++ envp)).length < argTop
  pages : ∀ word name rest, Shebang (firstBlock k₁ i) word name rest →
    0x4000 - stackPointer (vector name rest filename argv) envp / 4096 + 3 ≤ avail mm

/-- Without an `argv[0]`, `argc` is one too small. -/
theorem not_runsScript {k₁ k₂ : Fs.Kern} {cs : ℕ} {filename : List UInt8} (hcs : cs % 65536 = 0x000f)
    (h : MemInv lo hi s.mm own) (hs : Segments t s) (hfs : s.fs = .user) (hsc : Script filename i s.fsys k₁ k₂)
    (envp : List (List UInt8)) (h0 : ∀ str ∈ filename :: envp, (0 : UInt8) ∉ str) (hfit : Fits i k₁ k₂ filename [] envp s.mm)
    {word name : List UInt8} {rest : Option (List UInt8)} (hline : Shebang (firstBlock k₁ i) word name rest) :
    ¬ RunsScript cs t i k₁ k₂ filename [] envp s := by
  rintro ⟨hrun, -⟩
  obtain ⟨j, k₃, k₄, k₅, hprog⟩ := hfit.program _ _ _ hline
  obtain ⟨s1, sp1, ptr1, he1, -, -, hsp1, hlt1, hl1⟩ := hrun word name rest hline j k₃ k₄ k₅ hprog
  obtain ⟨s2, sp2, ptr2, he2, -, -, hsp2, hlt2, hl2⟩ := script_run hcs h hs hfs hsc [] envp h0 hline hprog
    (hfit.bytes _ _ _ hline) (hfit.pages _ _ _ hline)
  rw [he1] at he2
  cases he2
  exact given_short (hl2.args_length hl1 hlt2 hlt1 (hsp2.symm.trans hsp1))

theorem script_execution {k₁ k₂ : Fs.Kern} {cs : ℕ} {filename : List UInt8} (hcs : cs % 65536 = 0x000f)
    (h : MemInv lo hi s.mm own) (hs : Segments t s) (hfs : s.fs = .user) (hsc : Script filename i s.fsys k₁ k₂)
    (argv envp : List (List UInt8)) (h0 : ∀ str ∈ filename :: argv ++ envp, (0 : UInt8) ∉ str)
    (hfit : Fits i k₁ k₂ filename argv envp s.mm) :
    RunsScript cs t i k₁ k₂ filename argv envp s ↔
      (argv ≠ [] ∨ ¬ ∃ word name rest, Shebang (firstBlock k₁ i) word name rest) := by
  constructor
  · intro hrun
    by_contra hno
    obtain ⟨hnil, hline⟩ := not_or.mp hno
    obtain ⟨word, name, rest, hline⟩ := not_not.mp hline
    obtain rfl := not_not.mp hnil
    exact not_runsScript hcs h hs hfs hsc envp h0 hfit hline hrun
  · intro hcond
    refine ⟨fun word name rest hline j k₃ k₄ k₅ hprog => ?_, fun hline => script_rejected hcs h hfs hsc argv envp hline⟩
    have hne : argv ≠ [] := hcond.resolve_right fun hno => hno ⟨word, name, rest, hline⟩
    obtain ⟨s', sp, ptr, he⟩ := script_run hcs h hs hfs hsc argv envp h0 hline hprog (hfit.bytes _ _ _ hline)
      (hfit.pages _ _ _ hline)
    rw [given_eq hne, environment_eq hne] at he
    exact ⟨s', sp, ptr, he⟩

/-! ## A script for the shell -/

/-- The directory of `shDir`, with `x`, which is inode 3. -/
def scDir : Fs.Block := fun n => if n = 48 then 3 else if n = 50 then 120 else shDir n

/-- `#!/sh` and a newline. -/
def scText : Fs.Block := fun n =>
  if n = 0 then 35 else if n = 1 then 33 else if n = 2 then 47 else if n = 3 then 115 else if n = 4 then 104
  else if n = 5 then 10 else 0

def scDisk : Fs.Disk where
  super := shDisk.super
  imap _ := true
  zmap _ := true
  inode n := if n = 1 then ⟨0o040755, 0, 64, 0, 2, fun k => if k = 0 then 20 else 0⟩
    else if n = 3 then ⟨0o100755, 0, 6, 0, 1, fun k => if k = 0 then 22 else 0⟩ else shDisk.inode n
  block b := if b = 20 then scDir else if b = 22 then scText else shDisk.block b

def scFs : Fs.Kern := { shFs with
  inode := fun i => if i = 0 then ⟨scDisk.inode 1, 769, 1, 4, false, false, false⟩ else Fs.MInode.zero
  disk := fun _ => scDisk }

def scKern : Kern := { shKern with fsys := scFs }

/-- `/x` -/
def sc : List UInt8 := [47, 120]

/-- What the lookups of the script and of its interpreter lead to. -/
def scFound : Bool := match Fs.namei sc scFs with
  | .ok (some i) k => Fs.isReg (k.inode i).mode && Fs.mayRun k.cur (k.inode i) && (k.inode i).dev = 769 &&
    (k.inode i).zone 0 = 22 && match Fs.iput (some i) k with
      | .ok () k₂ => match Fs.namei sh k₂ with
        | .ok (some j) k₃ => loads k₃ j
        | _ => false
      | _ => false
  | _ => false

theorem scFs_holds : Fs.Holding (fun _ _ => 0) (fun _ _ => 0) scFs.blocks scFs := by
  refine ⟨rfl, rfl, fun i hd hn => ?_, fun d n _ hn => ?_⟩
  · by_cases hi : i = 0
    · subst hi
      exact absurd hn (by decide)
    · simp [scFs, hi, Fs.MInode.zero] at hd
  · change (scDisk.inode n).nlinks = 0 at hn
    change Fs.CalmTree _ _ _ (scDisk.inode n).zone
    unfold scDisk shDisk at hn ⊢
    dsimp only at hn ⊢
    split_ifs at hn ⊢
    exact ⟨fun k _ hk => absurd rfl hk, fun hk => absurd rfl hk, fun hk => absurd rfl hk⟩

theorem scText_line : Shebang scText sh [115, 104] none := by
  have hsplit : (List.range (4 + 1018)).map (fun k => scText (2 + k)) =
      ([] ++ (sh ++ [])) ++ 10 :: ((List.range 1018).map (4 + ·)).map fun k => scText (2 + k) := by
    have hhead : (List.range 4).map (fun k => scText (2 + k)) = sh ++ [10] := by decide +kernel
    rw [List.range_add, List.map_append, hhead, List.append_assoc, List.nil_append, List.append_nil, List.singleton_append]
  exact ⟨⟨[], [], _, hsplit, by decide +kernel, by decide +kernel, nofun, Or.inl ⟨rfl, rfl⟩⟩, by decide +kernel,
    by decide +kernel, by decide +kernel, Or.inr ⟨[], rfl⟩⟩

/-- The script is found, its first block is `scText`, and so is its interpreter. -/
theorem sc_script : ∃ i k₁ k₂, Script sc i scKern.fsys k₁ k₂ ∧ firstBlock k₁ i = scText ∧
    ∃ j k₃ k₄ k₅, Program sh j k₂ k₃ k₄ k₅ := by
  have hf : scFound = true := by decide +kernel
  unfold scFound at hf
  cases he : Fs.namei sc scFs with
  | fault k => rw [he] at hf; cases hf
  | stop e => rw [he] at hf; cases hf
  | ok r k₁ =>
    rw [he] at hf
    cases r with
    | none => cases hf
    | some i =>
      simp only [Bool.and_eq_true, decide_eq_true_eq] at hf
      obtain ⟨⟨⟨⟨hreg, hrun⟩, hdev⟩, hzone⟩, hf⟩ := hf
      have hold₁ := (Fs.namei_holds sc).ok scFs_holds he
      have hblock : firstBlock k₁ i = scText := by
        unfold firstBlock
        rw [hdev, hzone]
        exact congrFun (congrFun hold₁.blocks 769) 22
      cases hp : Fs.iput (some i) k₁ with
      | fault k => rw [hp] at hf; cases hf
      | stop e => rw [hp] at hf; cases hf
      | ok u k₂ =>
        rw [hp] at hf
        have hold₂ := (Fs.iput_holds (some i)).ok hold₁ hp
        have hcur : k₂.cur = scFs.cur := (Fs.Leaves.ok (Fs.iput_leaves (some i)) hp).cur.trans ((Fs.namei_leaves sc).ok he).cur
        dsimp only at hf
        cases hs : Fs.namei sh k₂ with
        | fault k => rw [hs] at hf; cases hf
        | stop e => rw [hs] at hf; cases hf
        | ok r k₃ =>
          rw [hs] at hf
          cases r with
          | none => cases hf
          | some j =>
            obtain ⟨k₄, k₅, hprog⟩ := program_of hold₂ (by rw [hcur]; rfl) (fun fd => by rw [hcur]; rfl) hs hf
            refine ⟨i, k₁, k₂, ⟨he, hreg, hrun, by rw [hdev]; decide, ?_, ?_, hp⟩, hblock, j, k₃, k₄, k₅, hprog⟩
            · rw [hold₁.bcount]
              exact show (0 : UInt8) ≠ 255 by decide
            · rw [hblock]
              exact ⟨rfl, rfl⟩

theorem scKern_inv : MemInv 1024 4096 scKern.mm ∅ := idleKern_inv

theorem scKern_segments : Segments 1 scKern := by
  obtain ⟨h1, -, h3, h4, h5, h6, h7, h8⟩ := shKern_segments
  exact ⟨h1, rfl, h3, h4, h5, h6, h7, h8⟩

/-- There is room for a few strings. -/
theorem sc_fits {i : Fin 32} {k₁ k₂ : Fs.Kern} (hblock : firstBlock k₁ i = scText)
    (hprog : ∃ j k₃ k₄ k₅, Program sh j k₂ k₃ k₄ k₅) {argv envp : List (List UInt8)}
    (hn : (bytes (vector [115, 104] none sc argv ++ envp)).length < argTop)
    (hroom : 0x4000 - stackPointer (vector [115, 104] none sc argv) envp / 4096 + 3 ≤ 32) :
    Fits i k₁ k₂ sc argv envp scKern.mm := by
  have hpages : 0x4000 - stackPointer (vector [115, 104] none sc argv) envp / 4096 + 3 ≤ avail scKern.mm :=
    hroom.trans idleKern_avail
  refine ⟨fun word name rest hl => ?_, fun word name rest hl => ?_, fun word name rest hl => ?_⟩ <;>
    rw [hblock] at hl <;> obtain ⟨rfl, rfl, rfl⟩ := scText_line.unique hl
  · exact hprog
  · exact hn
  · exact hpages

theorem script_execution_sc : ∃ i k₁ k₂, RunsScript 0x000f 1 i k₁ k₂ sc [[120], [97]] [[72]] scKern ↔
    (([[120], [97]] : List (List UInt8)) ≠ [] ∨ ¬ ∃ word name rest, Shebang (firstBlock k₁ i) word name rest) := by
  obtain ⟨i, k₁, k₂, hsc, hblock, hprog⟩ := sc_script
  refine ⟨i, k₁, k₂, ?_⟩
  exact script_execution (by decide) scKern_inv scKern_segments rfl hsc [[120], [97]] [[72]] (by decide)
    (sc_fits hblock hprog (by decide) (by decide))

/-- With an empty `argv` the shell has an `argc` of 1, and the name of the script is its first
    environment string. -/
theorem script_execution_not : ∃ i k₁ k₂, Script sc i scKern.fsys k₁ k₂ ∧ Fits i k₁ k₂ sc [] [[72]] scKern.mm ∧
    ¬ RunsScript 0x000f 1 i k₁ k₂ sc [] [[72]] scKern := by
  obtain ⟨i, k₁, k₂, hsc, hblock, hprog⟩ := sc_script
  have hfit : Fits i k₁ k₂ sc [] [[72]] scKern.mm := sc_fits hblock hprog (by decide) (by decide)
  exact ⟨i, k₁, k₂, hsc, hfit,
    not_runsScript (by decide) scKern_inv scKern_segments rfl hsc [[72]] (by decide) hfit (hblock ▸ scText_line)⟩

end Linux011.Exec
