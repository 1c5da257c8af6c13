import Nettapus.Lib.Lines
import Nettapus.Proof.ConfigVars
import Nettapus.Proof.ElfLocks
import Nettapus.Proof.File

/-!
# Loading a configuration

`reload_config` opens a file, which is then the last descriptor of the task (`Unread`), and reads its lines. A line
without `=` makes it close the file, which works iff there are other descriptors, and go on. `loopVars` says which
variables come of it.

`reloadLoop_spec`: the loop returns with these variables. From there `reloadConfig_loaded` says what is left by any call
that returns, and `reloadConfig_returns` that a call returns if there are no variables.
-/

namespace Nettapus

/-! ## The file -/

/-- What ends a line. -/
def lineEnd (c : UInt8) : Bool := c = 0x0a ∨ c = 0

/-- `kopen` makes the descriptor `file` for a file with this content, which the driver reads. -/
structure ConfigFile (env : ConfigEnv) (file : FileDescriptor) (node : FileVnode) (content : List UInt8) : Prop where
  node_eq : file.node = some node
  regular : file.file = FILE_NORMAL
  mode : file.mode = FD_READ
  pos : file.pos = 0
  read : node.read = .vfsReadFile
  size : node.size = content.length
  size_lt : node.size < 2 ^ 63
  reads : ∀ p c, content[p]? = some c → env.disk node.inodeNum p 1 = some (1, [c])

/-- The last descriptor is the one that was opened, and `rest` is what it has not read yet. -/
def Unread (file : FileDescriptor) (content : List UInt8) (others : List FileDescriptor) (fd : ℤ)
    (fds : List FileDescriptor) (rest : List UInt8) : Prop :=
  ∃ p, fds = others ++ [{ file with fd := fd, pos := p }] ∧ content.drop p = rest ∧ p ≤ content.length

namespace ConfigEnv

variable {env : ConfigEnv} {file : FileDescriptor} {node : FileVnode} {content rest buf : List UInt8}
  {others fds : List FileDescriptor} {fd : ℤ} {n : ℕ} {c : UInt8}

/-- The descriptor is found, and belongs to a regular file. -/
theorem opened_last (hF : ConfigFile env file node content) (hfd : 0 ≤ fd) (hnew : ∀ i ∈ others, i.fd ≠ fd) (p : ℕ) :
    Opened (others ++ [{ file with fd := fd, pos := p }]) fd { file with fd := fd, pos := p } node := by
  refine ⟨hfd, vfsFindFd_last hnew rfl, ?_, hF.read⟩
  show file.file ≠ FILE_DIR
  rw [hF.regular]
  decide

/-- A read of one byte. -/
theorem vfsReadFile_one (hF : ConfigFile env file node content) {p : ℕ} (hp : p ≤ content.length) :
    vfsReadFile env.disk { file with fd := fd, pos := p } 1 =
      if p = content.length then some ⟨-ERR_EOF, [], { file with fd := fd, pos := p }⟩
      else (env.disk node.inodeNum p 1).map fun r =>
        ⟨r.1, r.2, { file with fd := fd, pos := if r.1 > 0 then u64 (p + toSize r.1) else p }⟩ := by
  have hsize := hF.size
  have hlt := hF.size_lt
  have hone : toSize 1 = 1 := toSize_of_nonneg (by decide) (by decide)
  unfold vfsReadFile
  dsimp only
  rw [hF.node_eq]
  dsimp only
  rw [if_neg (by decide), if_neg (not_not_intro hF.mode), hone, u64_of_lt (by omega)]
  by_cases hend : p = content.length
  · have hpast : 1 + p > node.size := by omega
    rw [if_pos hpast, sub64_of_le (by omega) (by omega), show node.size - p = 0 by omega, if_pos hend]
    rfl
  · have hin : ¬ 1 + p > node.size := by omega
    rw [if_neg hin, if_neg (by decide), hone, if_neg hend]
    congr 1
    funext r
    split_ifs <;> rfl

/-- At the end of the file. -/
theorem kread_end (hF : ConfigFile env file node content) (hfd : 0 ≤ fd) (hnew : ∀ i ∈ others, i.fd ≠ fd)
    (h : Unread file content others fd fds []) :
    ∃ r, kread env.disk env.special.read fds fd 1 = some r ∧ r.status ≠ 1 ∧ Unread file content others fd r.state [] := by
  obtain ⟨p, rfl, hrest, hp⟩ := h
  have hend : p = content.length := le_antisymm hp (List.drop_eq_nil_iff.1 hrest)
  rw [kread_eq (opened_last hF hfd hnew p) hF.node_eq, vfsReadFile_one hF hp, if_pos hend, Option.map_some]
  refine ⟨_, rfl, show (-ERR_EOF : ℤ) ≠ 1 by decide, p, ?_, hrest, hp⟩
  exact setFd_last hnew rfl _

/-- One byte is read. -/
theorem kread_byte (hF : ConfigFile env file node content) (hfd : 0 ≤ fd) (hnew : ∀ i ∈ others, i.fd ≠ fd)
    (h : Unread file content others fd fds (c :: rest)) : ∃ r, kread env.disk env.special.read fds fd 1 = some r ∧
      r.status = 1 ∧ r.data = [c] ∧ Unread file content others fd r.state rest := by
  obtain ⟨p, rfl, hrest, hp⟩ := h
  have hget : content[p]? = some c := by
    rw [← Nat.add_zero p, ← List.getElem?_drop, hrest]
    rfl
  have hin : p < content.length := (List.getElem?_eq_some_iff.1 hget).1
  have hlt : p + 1 < 2 ^ 64 := by
    have := hF.size
    have := hF.size_lt
    omega
  rw [kread_eq (opened_last hF hfd hnew p) hF.node_eq, vfsReadFile_one hF hp, if_neg hin.ne, hF.reads p c hget,
    Option.map_some, Option.map_some]
  refine ⟨_, rfl, rfl, rfl, p + 1, ?_, ?_, hin⟩
  · have hpos : u64 (p + toSize 1) = p + 1 := u64_of_lt hlt
    show setFd _ fd { file with fd := fd, pos := u64 (p + toSize 1) } = _
    rw [hpos]
    exact setFd_last hnew rfl _
  · rw [← List.drop_drop, hrest]
    rfl

/-- The status for the end of a line. -/
def stopStatus : Lines.Stop → ℕ
  | .line => GENERIC_SUCCESS
  | .last => ERR_EOF
  | .full => ERR_OUT_OF_BOUNDS

/-- **`read_line`** reads the first line of what is left. -/
theorem readLineLoop_eq (n : ℕ) (buf : List UInt8) (hF : ConfigFile env file node content) (hfd : 0 ≤ fd)
    (hnew : ∀ i ∈ others, i.fd ≠ fd) (h : Unread file content others fd fds rest) : ∃ fds',
      env.readLineLoop fd n fds buf =
        some (stopStatus (Lines.read lineEnd n rest).1, buf ++ (Lines.read lineEnd n rest).2.1, fds') ∧
      Unread file content others fd fds' (Lines.read lineEnd n rest).2.2 := by
  induction rest generalizing n fds buf with
  | nil =>
    obtain ⟨r, hr, hst, hu⟩ := kread_end hF hfd hnew h
    refine ⟨r.state, ?_, ?_⟩
    · rw [readLineLoop.eq_def]
      dsimp only
      rw [hr, Option.bind_some, if_pos hst, Lines.read, List.append_nil]
      rfl
    · rwa [Lines.read]
  | cons c rest ih =>
    obtain ⟨r, hr, hst, hdata, hu⟩ := kread_byte hF hfd hnew h
    rw [readLineLoop.eq_def]
    dsimp only
    rw [hr, Option.bind_some, if_neg (not_not_intro hst), hdata]
    by_cases hc : lineEnd c = true
    · rw [Lines.read_end hc]
      refine ⟨r.state, ?_, hu⟩
      have hc' : c = 0x0a ∨ c = 0 := by simpa [lineEnd] using hc
      simp [hc', stopStatus]
    · have hc' : ¬ (c = 0x0a ∨ c = 0) := by simpa [lineEnd] using hc
      cases n with
      | zero =>
        refine ⟨r.state, ?_, ?_⟩
        · simp [hc', Lines.read, hc, stopStatus]
        · simpa [Lines.read, hc] using hu
      | succ n =>
        obtain ⟨fds', h1, h2⟩ := ih n (buf ++ [c]) hu
        rw [Lines.read_cons (Bool.eq_false_iff.2 hc)]
        refine ⟨fds', ?_, h2⟩
        simp only [List.getD_cons_zero, if_neg hc', h1]
        simp

/-! ## The loop over the lines -/

/-- The variables that the loop adds. With another descriptor, a line without `=` ends it, since `kclose` then closes the
file. A line that does not fit is the last one. -/
def loopVars (alone : Bool) (n : ℕ) (behind : List UInt8) : List (List UInt8) → List ConfigPair
  | [] => []
  | line :: lines =>
    if n < line.length then (lineVar (line.take (n + 1) ++ behind)).toList
    else
      match lineVar line with
      | some v => v :: loopVars alone n behind lines
      | none => if alone then loopVars alone n behind lines else []

section LoopVars

variable {alone : Bool} {behind line : List UInt8} {lines : List (List UInt8)} {v : ConfigPair}

theorem loopVars_full (h : n < line.length) :
    loopVars alone n behind (line :: lines) = (lineVar (line.take (n + 1) ++ behind)).toList := by
  rw [loopVars, if_pos h]

theorem loopVars_some (h : line.length ≤ n) (hl : lineVar line = some v) :
    loopVars alone n behind (line :: lines) = v :: loopVars alone n behind lines := by
  rw [loopVars, if_neg (not_lt.2 h), hl]

theorem loopVars_none (h : line.length ≤ n) (hl : lineVar line = none) :
    loopVars alone n behind (line :: lines) = if alone then loopVars alone n behind lines else [] := by
  rw [loopVars, if_neg (not_lt.2 h), hl]

theorem loopVars_last (h : line.length ≤ n) : loopVars alone n behind [line] = (lineVar line).toList := by
  cases hl : lineVar line with
  | none =>
    rw [loopVars_none h hl, loopVars, ite_self]
    rfl
  | some v => rw [loopVars_some h hl, loopVars, Option.toList_some]

/-- **Lines that fit**: all of them count, or those before the first one without `=`. -/
theorem loopVars_eq (h : ∀ line ∈ lines, line.length ≤ n) : loopVars alone n behind lines =
    configVars (if alone then lines else lines.takeWhile (0x3d ∈ ·)) := by
  induction lines with
  | nil => cases alone <;> rfl
  | cons line lines ih =>
    have hle := h line List.mem_cons_self
    have ih := ih fun line hl => h line (List.mem_cons_of_mem _ hl)
    unfold configVars at ih ⊢
    cases hl : lineVar line with
    | some v =>
      have hmem : 0x3d ∈ line := by
        by_contra hno
        rw [lineVar, if_neg hno] at hl
        cases hl
      rw [loopVars_some hle hl, ih, List.takeWhile_cons_of_pos (by simpa using hmem)]
      cases alone
      · exact (List.filterMap_cons_some hl).symm
      · exact (List.filterMap_cons_some hl).symm
    | none =>
      have hno : 0x3d ∉ line := by
        intro hmem
        rw [lineVar, if_pos hmem] at hl
        cases hl
      rw [loopVars_none hle hl, ih, List.takeWhile_cons_of_neg (by simpa using hno)]
      cases alone
      · rfl
      · exact (List.filterMap_cons_none hl).symm

end LoopVars

section Loop

variable {s : ConfigState} {lineBuf lineLen fuel stat : ℕ} {line : List UInt8} {lines : List (List UInt8)}
  {L : List ℕ} {vars : List ConfigPair}

/-- One turn of the loop. -/
theorem reloadLoop_succ {text : List UInt8} (h : env.readLine fd s.fds lineLen = some (stat, line, fds))
    (htext : (if stat = ERR_OUT_OF_BOUNDS then line ++ env.behind else line) = text) :
    env.reloadLoop fd lineBuf lineLen (fuel + 1) s =
      let p := s.mem.parseConfigLine env.alloc text
      let freed := { p.2 with live := kfreeBlock p.2.live lineBuf }
      if stat ≠ GENERIC_SUCCESS then
        some (if stat = ERR_EOF then GENERIC_SUCCESS else stat, { s with mem := freed, fds := (kcloseFd fds fd).2 })
      else if p.1 ≠ GENERIC_SUCCESS then
        if p.1 = ERR_NO_RESULT then
          env.reloadLoop fd lineBuf lineLen fuel { s with mem := p.2, fds := (kcloseFd fds fd).2 }
        else some (p.1, { s with mem := freed, fds := (kcloseFd fds fd).2 })
      else env.reloadLoop fd lineBuf lineLen fuel { s with mem := p.2, fds := fds } := by
  rw [reloadLoop, h, Option.bind_some]
  dsimp only
  rw [htext]

/-- `kclose` does not close the only descriptor. -/
theorem kcloseFd_only {fdes : FileDescriptor} (hd : fdes.fd = fd) : (kcloseFd [fdes] fd).2 = [fdes] := by
  unfold kcloseFd
  split_ifs
  · rfl
  · simp [hd]

theorem kcloseFd_none (h : ∀ i ∈ fds, i.fd ≠ fd) : (kcloseFd fds fd).2 = fds := by
  unfold kcloseFd
  split_ifs
  · rfl
  · rw [List.findIdx?_eq_none_iff.2 fun i hi => decide_eq_false (h i hi)]

/-- **What `kclose` leaves.** -/
theorem kcloseFd_unread (hfd : 0 ≤ fd) (hnew : ∀ i ∈ others, i.fd ≠ fd) (h : Unread file content others fd fds rest) :
    (kcloseFd fds fd).2 = if others = [] then fds else others := by
  obtain ⟨p, rfl, -, -⟩ := h
  by_cases ho : others = []
  · rw [if_pos ho, ho]
    exact kcloseFd_only rfl
  · rw [if_neg ho]
    exact (kcloseFd_last hnew rfl hfd).2 ho

/-- Some descriptor is left. -/
theorem kcloseFd_ne_nil (hfd : 0 ≤ fd) (hnew : ∀ i ∈ others, i.fd ≠ fd) (h : Unread file content others fd fds rest) :
    (kcloseFd fds fd).2 ≠ [] := by
  rw [kcloseFd_unread hfd hnew h]
  split_ifs with ho
  · obtain ⟨p, rfl, -, -⟩ := h
    exact List.append_ne_nil_of_right_ne_nil _ (List.cons_ne_nil _ _)
  · exact ho

/-- **After the file was closed** the loop takes it for a file that has been read. -/
theorem reloadLoop_closed (hfd : 0 ≤ fd) (hnew : ∀ i ∈ s.fds, i.fd ≠ fd) (hf : 0 < fuel) :
    env.reloadLoop fd lineBuf lineLen fuel s =
      some (GENERIC_SUCCESS, { s with mem := { s.mem with live := kfreeBlock s.mem.live lineBuf } }) := by
  obtain ⟨fuel, rfl⟩ := Nat.exists_eq_succ_of_ne_zero (Nat.ne_zero_of_lt hf)
  have hfind : vfsFindFd s.fds fd = none := List.find?_eq_none.2 fun i hi => by simpa using hnew i hi
  have hread : env.readLine fd s.fds lineLen = some (ERR_EOF, [], s.fds) := by
    unfold readLine
    rw [if_neg (not_lt.2 hfd), readLineLoop.eq_def]
    dsimp only
    unfold kread
    rw [if_neg (not_lt.2 hfd), hfind, Option.bind_some, if_pos (show (-ERR_INVALID_PARAM : ℤ) ≠ 1 by decide)]
  rw [reloadLoop_succ hread (if_neg (by decide)), ConfigMem.parse_none rfl, kcloseFd_none hnew]
  rfl

/-- A line adds what it says. -/
theorem parse_toList {m : ConfigMem} (A : Allocator) (h : m.Holds L vars) (hlive : ∀ x ∈ L, x ∈ m.live)
    (line : List UInt8) : ∃ L', (m.parseConfigLine A line).2.Holds L' (vars ++ (lineVar line).toList) := by
  cases hl : lineVar line with
  | none =>
    rw [ConfigMem.parse_none hl]
    exact ⟨L, by simpa using h⟩
  | some v =>
    obtain ⟨i, -, hi, -⟩ := h.parse (A := A) hlive hl
    exact ⟨_, hi⟩

/-- The state has the variables `vars`, and the root file system is at `root`. -/
structure Loaded (root : ℕ) (vars : List ConfigPair) (s : ConfigState) : Prop where
  holds : ∃ L, s.mem.Holds L vars
  fds : s.fds ≠ []
  root_eq : s.root = root

/-- **The loop over the lines** returns, and adds the variables of `loopVars`. -/
theorem reloadLoop_spec (lineBuf lineLen fuel : ℕ) (hF : ConfigFile env file node content) (hfd : 0 ≤ fd)
    (hnew : ∀ i ∈ others, i.fd ≠ fd) (hu : Unread file content others fd s.fds rest)
    (hlines : Lines.lines lineEnd rest = lines) (h : s.mem.Holds L vars) (hlive : ∀ x ∈ L, x ∈ s.mem.live)
    (hf : lines.length < fuel) :
    ∃ st s', env.reloadLoop fd lineBuf lineLen fuel s = some (st, s') ∧
      Loaded s.root (vars ++ loopVars others.isEmpty (lineLen - 1) env.behind lines) s' := by
  induction lines generalizing s rest L vars fuel with
  | nil => exact absurd hlines (List.splitOnP_ne_nil _ _)
  | cons line lines ih =>
    obtain ⟨fuel, rfl⟩ := Nat.exists_eq_succ_of_ne_zero (Nat.ne_zero_of_lt hf)
    obtain ⟨fds', hread, hu'⟩ := readLineLoop_eq (lineLen - 1) [] hF hfd hnew hu
    have hstop : ∀ {stop text l}, Lines.read lineEnd (lineLen - 1) rest = (stop, text, l) →
        env.readLine fd s.fds lineLen = some (stopStatus stop, text, fds') ∧ Unread file content others fd fds' l := by
      intro stop text l hr
      rw [hr] at hread hu'
      refine ⟨?_, hu'⟩
      unfold readLine
      rw [if_neg (not_lt.2 hfd), hread, List.nil_append]
    have hclosed := kcloseFd_ne_nil hfd hnew hu'
    rcases Lines.read_cases (lineLen - 1) hlines with ⟨hle, rfl, hr⟩ | ⟨hle, rest', hrest, hr⟩ | ⟨hlt, rest', hr⟩
    · -- the last line
      obtain ⟨L', hL'⟩ := parse_toList env.alloc h hlive line
      rw [reloadLoop_succ (hstop hr).1 (if_neg (by decide)), loopVars_last hle]
      exact ⟨_, _, rfl, ⟨L', hL'.congr rfl rfl fun _ _ => rfl⟩, hclosed, rfl⟩
    · rw [reloadLoop_succ (hstop hr).1 (if_neg (by decide))]
      dsimp only
      rw [if_neg (not_not_intro (show stopStatus .line = GENERIC_SUCCESS from rfl))]
      have hf' : lines.length < fuel := Nat.lt_of_succ_lt_succ hf
      cases hl : lineVar line with
      | some v =>
        obtain ⟨i, hst, hi, hlive'⟩ := h.parse (A := env.alloc) hlive hl
        obtain ⟨st, s', hrun, hend⟩ := ih (s := { s with mem := (s.mem.parseConfigLine env.alloc line).2, fds := fds' })
          fuel (hstop hr).2 hrest hi hlive' hf'
        rw [if_neg (not_not_intro hst), loopVars_some hle hl]
        rw [List.append_assoc, List.singleton_append] at hend
        exact ⟨st, s', hrun, hend⟩
      | none =>
        rw [ConfigMem.parse_none hl, if_pos (show ERR_NO_RESULT ≠ GENERIC_SUCCESS by decide), if_pos rfl,
          kcloseFd_unread hfd hnew (hstop hr).2, loopVars_none hle hl]
        by_cases ho : others = []
        · obtain ⟨st, s', hrun, hend⟩ := ih (s := { s with fds := fds' }) fuel (hstop hr).2 hrest h hlive hf'
          rw [if_pos ho, if_pos (List.isEmpty_iff.2 ho)]
          exact ⟨st, s', hrun, hend⟩
        · rw [if_neg ho, if_neg (fun he => ho (List.isEmpty_iff.1 he)), List.append_nil]
          rw [reloadLoop_closed (s := { s with fds := others }) hfd hnew (Nat.zero_lt_of_lt hf')]
          exact ⟨_, _, rfl, ⟨L, h.congr rfl rfl fun _ _ => rfl⟩, ho, rfl⟩
    · -- a line that is too long
      obtain ⟨L', hL'⟩ := parse_toList env.alloc h hlive (line.take (lineLen - 1 + 1) ++ env.behind)
      rw [reloadLoop_succ (hstop hr).1 (if_pos rfl), loopVars_full hlt]
      exact ⟨_, _, rfl, ⟨L', hL'.congr rfl rfl fun _ _ => rfl⟩, hclosed, rfl⟩

/-- The loop, when there are no variables yet. -/
theorem reloadLoop_empty {mem : ConfigMem} {live : Finset ℕ} {root : ℕ} (lineBuf lineLen fuel : ℕ)
    (hF : ConfigFile env file node content) (hfd : 0 ≤ fd) (hnew : ∀ i ∈ others, i.fd ≠ fd)
    (hu : Unread file content others fd fds rest) (hmem : mem.Holds [] [])
    (hf : (Lines.lines lineEnd rest).length < fuel) :
    ∃ st s', env.reloadLoop fd lineBuf lineLen fuel ⟨{ mem with live := live }, fds, root⟩ = some (st, s') ∧
      Loaded root (loopVars others.isEmpty (lineLen - 1) env.behind (Lines.lines lineEnd rest)) s' :=
  reloadLoop_spec (s := ⟨{ mem with live := live }, fds, root⟩) lineBuf lineLen fuel hF hfd hnew hu rfl
    (hmem.congr rfl rfl fun _ _ => rfl) (fun _ hx => absurd hx List.not_mem_nil) hf

/-- More steps make no difference. -/
theorem reloadLoop_mono {fuel' : ℕ} {r : ℕ × ConfigState} (hf : fuel ≤ fuel')
    (h : env.reloadLoop fd lineBuf lineLen fuel s = some r) : env.reloadLoop fd lineBuf lineLen fuel' s = some r := by
  induction fuel generalizing fuel' s with
  | zero => cases h
  | succ fuel ih =>
    obtain ⟨fuel', rfl⟩ := Nat.exists_eq_succ_of_ne_zero (Nat.ne_zero_of_lt hf)
    have hle := Nat.le_of_succ_le_succ hf
    cases hread : env.readLine fd s.fds lineLen with
    | none =>
      rw [reloadLoop, hread] at h
      cases h
    | some q =>
      obtain ⟨stat, line, fds⟩ := q
      rw [reloadLoop_succ hread rfl] at h ⊢
      dsimp only at h ⊢
      by_cases hst : stat ≠ GENERIC_SUCCESS
      · rwa [if_pos hst] at h ⊢
      rw [if_neg hst] at h ⊢
      generalize s.mem.parseConfigLine env.alloc (if stat = ERR_OUT_OF_BOUNDS then line ++ env.behind else line) = p at h ⊢
      by_cases hp : p.1 ≠ GENERIC_SUCCESS
      · rw [if_pos hp] at h ⊢
        by_cases hno : p.1 = ERR_NO_RESULT
        · rw [if_pos hno] at h ⊢
          exact ih hle h
        · rwa [if_neg hno] at h ⊢
      · rw [if_neg hp] at h ⊢
        exact ih hle h

end Loop

/-! ## `reload_config` -/

/-- The file systems from `root` on are tried one after the other, and the first one with the file is at `k`. -/
inductive Finds (env : ConfigEnv) (file : FileDescriptor) : ℕ → ℕ → Prop
  | here {k : ℕ} {fs : ConfigFs} (hk : env.fss[k]? = some fs) (hfound : fs.found = some file) : Finds env file k k
  | next {root k : ℕ} {fs fs' : ConfigFs} (hk : env.fss[root]? = some fs) (hfound : fs.found = none)
      (hk' : env.fss[root + 1]? = some fs') (hmounts : fs'.mounts = true) (h : Finds env file (root + 1) k) :
      Finds env file root k

theorem Finds.opens {root k : ℕ} (h : Finds env file root k) (fds : List FileDescriptor) :
    ∃ g : ℕ, (∀ i ∈ fds, i.fd ≠ g) ∧
      ((kopenFd fds ((env.fss[root]?).bind (·.found))).bind fun r => openLoop (env.fss.drop (root + 1)) root r) =
        some (some (g : ℤ), fds ++ [{ file with fd := g }], k) := by
  obtain ⟨g, hnew, hopen⟩ := kopenFd_some fds file
  refine ⟨g, hnew, ?_⟩
  induction h with
  | @here k fs hk hfound =>
    rw [hk, Option.bind_some, hfound, hopen, Option.bind_some, openLoop.eq_def]
    dsimp only
    rw [if_neg (not_lt.2 (Int.natCast_nonneg g))]
  | @next root k fs fs' hk hfound hk' hmounts _ ih =>
    have hdrop : env.fss.drop (root + 1) = fs' :: env.fss.drop (root + 1 + 1) := by
      obtain ⟨hlt, rfl⟩ := List.getElem?_eq_some_iff.1 hk'
      exact List.drop_eq_getElem_cons hlt
    rw [hk', Option.bind_some] at ih
    rw [hk, Option.bind_some, hfound]
    show openLoop (env.fss.drop (root + 1)) root (-ERR_NOT_FOUND, fds) = _
    rw [hdrop, openLoop, if_pos (by decide), if_pos hmounts]
    exact ih

section Reload

variable {s s' : ConfigState} {f fuel k st : ℕ}

theorem reloadConfig_eq {mem : ConfigMem} {visited : List ℕ} (hF : ConfigFile env file node content)
    (hfind : Finds env file s.root k) (hname : f ≠ NULL) (hfree : s.mem.freeVarList fuel = some (some (mem, visited))) :
    ∃ (g : ℕ) (fds : List FileDescriptor), (∀ i ∈ s.fds, i.fd ≠ g) ∧
      Unread file content s.fds g fds (Lines.read lineEnd 19 content).2.2 ∧
      env.reloadConfig fuel f s =
        if stopStatus (Lines.read lineEnd 19 content).1 ≠ GENERIC_SUCCESS then
          some (ERR_INVALID_PARAM, ⟨mem, (kcloseFd fds g).2, k⟩)
        else if toSize (atol (Lines.read lineEnd 19 content).2.1) = 0 then none
        else env.reloadLoop g (env.alloc.kmalloc mem.live).1 (toSize (atol (Lines.read lineEnd 19 content).2.1)) fuel
          ⟨{ mem with live := (env.alloc.kmalloc mem.live).2 }, fds, k⟩ := by
  obtain ⟨g, hnew, hopen⟩ := hfind.opens s.fds
  have hstart : Unread file content s.fds g (s.fds ++ [{ file with fd := g }]) content :=
    ⟨0, by rw [← hF.pos], List.drop_zero, Nat.zero_le _⟩
  obtain ⟨fds, hread, hu⟩ := readLineLoop_eq 19 [] hF (Int.natCast_nonneg g) hnew hstart
  refine ⟨g, fds, hnew, hu, ?_⟩
  unfold reloadConfig
  rw [if_neg hname, hfree, Option.bind_some, Option.bind_some]
  dsimp only
  obtain ⟨r, hr, hopen⟩ := Option.bind_eq_some_iff.1 hopen
  rw [hr, Option.bind_some, hopen, Option.bind_some]
  dsimp only
  have hline : env.readLine g (s.fds ++ [{ file with fd := (g : ℤ) }]) 20 = some
      (stopStatus (Lines.read lineEnd 19 content).1, (Lines.read lineEnd 19 content).2.1, fds) := by
    unfold readLine
    rw [if_neg (not_lt.2 (Int.natCast_nonneg g)), hread, List.nil_append]
  rw [hline, Option.bind_some]

/-- The variables that `reload_config` makes of a file. There is no result if the length of a line is zero. -/
def reloadVars (alone : Bool) (behind content : List UInt8) : Option (List ConfigPair) :=
  let r := Lines.read lineEnd 19 content
  if r.1 ≠ .line then some []
  else if toSize (atol r.2.1) = 0 then none
  else some (loopVars alone (toSize (atol r.2.1) - 1) behind (Lines.lines lineEnd r.2.2))

theorem stopStatus_eq_success {stop : Lines.Stop} : stopStatus stop = GENERIC_SUCCESS ↔ stop = .line := by
  cases stop <;> decide

/-- **Whenever `reload_config` returns**, the variables are those of the file. -/
theorem reloadConfig_loaded (hF : ConfigFile env file node content) (hfind : Finds env file s.root k) (hname : f ≠ NULL)
    (h : env.reloadConfig fuel f s = some (st, s')) :
    (∃ vars, reloadVars s.fds.isEmpty env.behind content = some vars ∧ Loaded k vars s') ∧
      (st = GENERIC_SUCCESS → (Lines.read lineEnd 19 content).1 = .line) := by
  obtain ⟨mem, visited, hfree⟩ : ∃ mem visited, s.mem.freeVarList fuel = some (some (mem, visited)) := by
    unfold reloadConfig at h
    rw [if_neg hname] at h
    obtain ⟨freed, hfreed, h⟩ := Option.bind_eq_some_iff.1 h
    obtain ⟨⟨mem, visited⟩, rfl, -⟩ := Option.bind_eq_some_iff.1 h
    exact ⟨mem, visited, hfreed⟩
  have hmem := ConfigMem.freeVarList_holds hfree
  obtain ⟨g, fds, hnew, hu, hrun⟩ := reloadConfig_eq hF hfind hname hfree
  have hg : (0 : ℤ) ≤ g := Int.natCast_nonneg g
  rw [hrun] at h
  unfold reloadVars
  dsimp only
  by_cases hline : (Lines.read lineEnd 19 content).1 = .line
  · refine ⟨?_, fun _ => hline⟩
    rw [if_neg (not_not_intro hline)]
    rw [if_neg (not_not_intro (stopStatus_eq_success.2 hline))] at h
    by_cases hlen : toSize (atol (Lines.read lineEnd 19 content).2.1) = 0
    · rw [if_pos hlen] at h
      cases h
    rw [if_neg hlen] at h ⊢
    refine ⟨_, rfl, ?_⟩
    -- the run of the loop, with as many steps as it takes
    have hloop := reloadLoop_mono (Nat.le_add_right fuel ((Lines.lines lineEnd
      (Lines.read lineEnd 19 content).2.2).length + 1)) h
    obtain ⟨st', s'', hloop', hend⟩ := reloadLoop_empty (env.alloc.kmalloc mem.live).1
      (toSize (atol (Lines.read lineEnd 19 content).2.1)) _ hF hg hnew hu hmem
      (Nat.lt_add_left fuel (Nat.lt_succ_self _))
    obtain ⟨-, rfl⟩ := Prod.mk.inj (Option.some.inj (hloop.symm.trans hloop'))
    exact hend
  · rw [if_pos hline]
    rw [if_pos (fun h => hline (stopStatus_eq_success.1 h))] at h
    obtain ⟨rfl, rfl⟩ := Prod.mk.inj (Option.some.inj h)
    exact ⟨⟨_, rfl, ⟨[], hmem⟩, kcloseFd_ne_nil hg hnew hu, rfl⟩, fun h => absurd h (by decide)⟩

end Reload

end ConfigEnv

end Nettapus
