import Ps2sdk.Apa.Fresh
import Ps2sdk.Apa.Wrapped

/-!
# Requests to create a partition

`hddOpen` with `O_CREAT` adds one partition of a size from `sizeList`, or fails and leaves the table alone, unless
the name gives no size or the new header would take the place of the first one. `hddAddPartitionHere` allocates
inside the drive exactly if there is a free block for the partition, or it ends below sector 2³².
-/

namespace Ps2sdk.Apa

open Lib ApaProg List Nat

variable {n : ℕ} {encrypt : Id → Password → Password} {s s' : Driver n} {xs : List Word}

/-- The length is a size of `sizeList`. -/
def IsSize (length : Word) : Prop := ∃ text ∈ sizeList, fioPartitionSizeLookUp text = .ok length

/-- Sizes are powers of two, of 128 MB or more. -/
theorem toNat_size {text : Str} {size : Word} (h : fioPartitionSizeLookUp text = .ok size) :
    IsSize size ∧ ∃ j, 18 ≤ j ∧ size.toNat = 2 ^ j := by
  have hsize := h
  rw [fioPartitionSizeLookUp] at h
  cases hfind : sizeList.findIdx? (· == text) with
  | none => simp [hfind] at h
  | some i =>
    rw [hfind] at h
    obtain rfl := Except.ok.inj h
    rw [findIdx?_eq_some_iff_getElem] at hfind
    obtain ⟨hi, heq, -⟩ := hfind
    refine ⟨⟨text, (beq_iff_eq.mp heq) ▸ getElem_mem hi, hsize⟩, 18 + i, by omega, ?_⟩
    have hi9 : i < 9 := hi
    have hlt : 2 ^ (18 + i) < 2 ^ 32 := Nat.pow_lt_pow_right Nat.one_lt_two (by omega)
    rw [BitVec.toNat_shiftLeft, Nat.shiftLeft_eq, show (256 * 1024 : Word).toNat = 2 ^ 18 from rfl, ← Nat.pow_add,
      Nat.mod_eq_of_lt hlt]

theorem fioPartitionSizeLookUp_error {text : Str} {e : ℤ} (h : fioPartitionSizeLookUp text = .error e) :
    e = -22 := by
  unfold fioPartitionSizeLookUp at h
  split at h
  · cases h
  · exact (Except.error.inj h).symm

theorem fioInputBreaker_error {arg : Str} {maxout : ℕ} {e : ℤ} (h : fioInputBreaker arg maxout = .error e) :
    e = -22 := by
  unfold fioInputBreaker at h
  dsimp only at h
  split at h
  · exact (Except.error.inj h).symm
  · cases h

/-- The last two fields of a name: both are given, or the name is refused. -/
theorem fioGetSize_cases (arg : Str) (params : Params) : fioGetSize arg params = .error (-22) ∨
    ∃ size type, fioGetSize arg params = .ok { params with size := size, type := type } ∧ type ≠ apaTypeFree ∧
      IsSize size ∧ ∃ j, 18 ≤ j ∧ size.toNat = 2 ^ j := by
  unfold fioGetSize
  cases hfirst : fioInputBreaker arg 32 with
  | error e =>
    rw [fioInputBreaker_error hfirst]
    exact .inl rfl
  | ok field =>
    cases hsize : fioPartitionSizeLookUp field.1 with
    | error e =>
      left
      simp only [bind, Except.bind, hsize, fioPartitionSizeLookUp_error hsize]
    | ok size =>
      cases hsecond : fioInputBreaker field.2 32 with
      | error e =>
        left
        simp only [bind, Except.bind, hsize, hsecond, fioInputBreaker_error hsecond]
      | ok text =>
        cases hfind : fsTypes.find? (·.1 == text.1) with
        | none =>
          left
          simp only [bind, Except.bind, hsize, hsecond, hfind]
          rfl
        | some entry =>
          right
          refine ⟨size, entry.2, ?_, ?_, toNat_size hsize⟩
          · simp only [bind, Except.bind, hsize, hsecond, hfind]
            rfl
          · have hmem := mem_of_find?_eq_some hfind
            revert hmem
            simp only [fsTypes, mem_cons, not_mem_nil, or_false]
            rintro (rfl | rfl | rfl | rfl) <;> decide

/-- The parameters a name gives: without a size, or with a size and a type. -/
def Params.Given (params : Params) : Prop :=
  params.flags = 0 ∧ (params.size = 0 ∨
    params.type ≠ apaTypeFree ∧ IsSize params.size ∧ ∃ j, 18 ≤ j ∧ params.size.toNat = 2 ^ j)

/-- `fioGetInput` refuses a name, or reads its parameters. -/
theorem fioGetInput_cases (encrypt : Id → Password → Password) (name : Str) :
    fioGetInput encrypt name = .error (-22) ∨ ∃ params, fioGetInput encrypt name = .ok params ∧ params.Given := by
  unfold fioGetInput
  dsimp only
  split
  · exact .inl rfl
  · cases hid : fioInputBreaker (name.dropWhile (· == 0x20)) 32 with
    | error e =>
      rw [fioInputBreaker_error hid]
      exact .inl rfl
    | ok id =>
      simp only [bind, Except.bind, pure, Except.pure]
      split
      · exact .inr ⟨_, rfl, rfl, .inl rfl⟩
      · cases hfpwd : fioInputBreaker id.2 8 with
        | error e =>
          rw [fioInputBreaker_error hfpwd]
          exact .inl rfl
        | ok fpwd =>
          dsimp only
          split
          · exact .inr ⟨_, rfl, rfl, .inl rfl⟩
          · cases hrpwd : fioInputBreaker fpwd.2 8 with
            | error e =>
              rw [fioInputBreaker_error hrpwd]
              exact .inl rfl
            | ok rpwd =>
              dsimp only
              split
              · exact .inr ⟨_, rfl, rfl, .inl rfl⟩
              · rcases fioGetSize_cases rpwd.2 _ with herr | ⟨size, type, hok, htype, hsize⟩
                · exact .inl herr
                · exact .inr ⟨_, hok, rfl, .inr ⟨htype, hsize⟩⟩

/-- The table is as it was. -/
def Kept (s s' : Driver n) (xs : List Word) : Prop :=
  s'.Stores (2 ^ 18) xs ∧ ∀ x ∈ 0 :: xs, s'.headers x = s.headers x

/-- Exactly one partition has been added, of a size from `sizeList`. -/
def Added (s s' : Driver n) (xs : List Word) : Prop :=
  ∃ xs' x, s'.Stores (2 ^ 18) xs' ∧ x ∈ 0 :: xs' ∧
    Created (blocks s.headers (0 :: xs)) (s'.headers x).block (blocks s'.headers (0 :: xs')) ∧
    (s'.headers x).type ≠ apaTypeFree ∧ IsSize (s'.headers x).length

/-- The request opens a partition that exists. -/
def OpensExisting (encrypt : Id → Password → Password) (s : Driver n) (xs : List Word) (name : Str) : Prop :=
  ∃ params, fioGetInput encrypt name = .ok params ∧ ∃ y ∈ 0 :: xs, (s.headers y).Named params.id

/-- A request with `O_CREAT` returns. It adds one partition, and returns what opening that gives; or it fails, or
opens a partition that exists, and the table is as it was. -/
def CreateDefined (encrypt : Id → Password → Password) (hdd : Hdd n) (xs : List Word) (name : Str) (wronly : Bool) :
    Prop :=
  ∃ rv, (hddOpen encrypt hdd name ⟨wronly, true⟩).1 = some rv ∧
    (Added hdd.driver (hddOpen encrypt hdd name ⟨wronly, true⟩).2.driver xs ∧ (rv = 0 ∨ rv = -13) ∨
      Kept hdd.driver (hddOpen encrypt hdd name ⟨wronly, true⟩).2.driver xs ∧
        (rv < 0 ∨ OpensExisting encrypt hdd.driver xs name))

/-- A request that comes to create a partition gives a size, and there is a free block for it, or the driver sees
that there is no space behind the table, or the partition starts below sector 2³². -/
def CreateSafe (encrypt : Id → Password → Password) (hdd : Hdd n) (xs : List Word) (name : Str) (wronly : Bool) :
    Prop :=
  ∀ params fd, hdd.device.status = 0 → fioGetInput encrypt name = .ok params → getFileSlot hdd.slots params.id =
    .ok fd → Creates hdd.device hdd.driver.headers xs params ⟨wronly, true⟩ →
    params.size ≠ 0 ∧ (Suitable hdd.driver.headers (0 :: xs) params.size.toNat ∨
      hdd.device.refuses (hdd.driver.tableEnd xs) params.size.toNat ∨
      alignUp (hdd.driver.tableEnd xs) params.size.toNat < 2 ^ 32)

/-- What opening a partition gives. -/
theorem openRv_cases (params : Params) (flags : OpenFlags) (h : Header) :
    openRv params flags h = 0 ∨ openRv params flags h = -13 := by
  unfold openRv
  split
  · split
    · exact .inr rfl
    · unfold apaPassCmp
      split
      · exact .inl rfl
      · exact .inr rfl
  · exact .inl rfl

/-- `getFileSlot` fails, or finds a slot. -/
theorem getFileSlot_cases (slots : List FileSlot) (id : Id) : (∃ rv, getFileSlot slots id = .error rv ∧ rv < 0) ∨
    ∃ fd slot, getFileSlot slots id = .ok fd ∧ slots[fd]? = some slot := by
  unfold getFileSlot
  split
  · exact .inl ⟨-16, rfl, by decide⟩
  · cases hfind : slots.findIdx? (·.f.isNone) with
    | none => exact .inl ⟨-24, rfl, by decide⟩
    | some i =>
      obtain ⟨hi, -⟩ := findIdx?_eq_some_iff_getElem.mp hfind
      exact .inr ⟨i, _, rfl, getElem?_eq_getElem hi⟩

/-- `hddOpen` that comes to `apaOpen`. -/
theorem hddOpen_run {hdd : Hdd n} {name : Str} {params : Params} {fd : ℕ} {slot : FileSlot} (flags : OpenFlags)
    (hstatus : hdd.device.status = 0) (hinput : fioGetInput encrypt name = .ok params)
    (hfd : getFileSlot hdd.slots params.id = .ok fd) (hslot : hdd.slots[fd]? = some slot) :
    (hddOpen encrypt hdd name flags).1 = ((apaOpen hdd.device slot params flags).run hdd.driver).1.map Prod.fst ∧
      (hddOpen encrypt hdd name flags).2.driver = ((apaOpen hdd.device slot params flags).run hdd.driver).2 := by
  unfold hddOpen
  rw [if_neg (not_not.mpr hstatus), hinput]
  dsimp only
  rw [hfd]
  unfold Hdd.execSlot
  dsimp only
  rw [hslot]
  dsimp only
  cases hrun : (apaOpen hdd.device slot params flags).run hdd.driver with
  | mk result driver =>
    cases result with
    | none => exact ⟨rfl, rfl⟩
    | some result => exact ⟨rfl, rfl⟩

/-- `apaOpen` adds a partition or leaves the table alone. -/
theorem Driver.WellFormed.open {device : Device} {slot : FileSlot} {params : Params} {flags : OpenFlags}
    (h : s.WellFormed xs) (hn : 3 ≤ n) (hgiven : params.Given)
    (hsafe : Creates device s.headers xs params flags → params.size ≠ 0 ∧
      (Suitable s.headers (0 :: xs) params.size.toNat ∨ device.refuses (s.tableEnd xs) params.size.toNat ∨
        alignUp (s.tableEnd xs) params.size.toNat < 2 ^ 32)) :
    ∃ result, ((apaOpen device slot params flags).run s).1 = some result ∧
      (Added s ((apaOpen device slot params flags).run s).2 xs ∧ (result.1 = 0 ∨ result.1 = -13) ∨
        Kept s ((apaOpen device slot params flags).run s).2 xs ∧
          (result.1 < 0 ∨ ∃ y ∈ 0 :: xs, (s.headers y).Named params.id)) := by
  obtain ⟨l, hxs⟩ := exists_lastOf xs
  have hwp : (apaOpen device slot params flags).wp (tableRules n (2 ^ 18)) (fun result t => ∃ v' xs',
      Settled (2 ^ 18) v' xs' t ∧ ((∃ x ∈ 0 :: xs', Created (blocks s.headers (0 :: xs)) (v' x).block
        (blocks v' (0 :: xs')) ∧ (v' x).type ≠ apaTypeFree ∧ IsSize (v' x).length ∧
          (result.1 = 0 ∨ result.1 = -13)) ∨
        v' = s.headers ∧ xs' = xs ∧ (result.1 < 0 ∨ ∃ y ∈ 0 :: xs, (s.headers y).Named params.id)))
          (s.atRest xs) := by
    refine h.stores.at.open hxs h.ended (fun hcreates => ?_) (fun hcreates hnone href => ?_) hn
      (fun y hmem hy t ht => ?_) (fun hcreates v' xs' x t ht hcreated hx hvx => ?_) fun rv t hrv ht => ?_
    · obtain ⟨-, -, hj⟩ := hgiven.2.resolve_left (hsafe hcreates).1
      exact hj
    · exact ((hsafe hcreates).2.resolve_left hnone).resolve_left href
    · exact ⟨_, xs, ht.settled, .inr ⟨rfl, rfl, .inr ⟨y, hmem, hy⟩⟩⟩
    · obtain ⟨htype, hsize, -⟩ := hgiven.2.resolve_left (hsafe hcreates).1
      obtain ⟨next, prev, created, hvx⟩ := hvx
      refine ⟨v', xs', ht, .inl ⟨x, hx, hcreated, ?_, ?_, openRv_cases ..⟩⟩
      · rw [hvx]
        exact htype
      · rw [hvx]
        exact hsize
    · refine ⟨_, xs, ht.settled, .inr ⟨rfl, rfl, .inl ?_⟩⟩
      omega
  obtain ⟨result, v', xs', hresult, hstores, hsame, hcases⟩ :=
    h.stores.run (pow_dvd_pow 2 (show 9 ≤ 18 by decide)) hwp
  refine ⟨result, hresult, ?_⟩
  rcases hcases with ⟨x, hx, hcreated, htype, hsize, hrv⟩ | ⟨rfl, rfl, hrv⟩
  · refine .inl ⟨⟨xs', x, hstores, hx, ?_, ?_, ?_⟩, hrv⟩
    · rwa [blocks_eq hsame, hsame x hx]
    · rwa [hsame x hx]
    · rwa [hsame x hx]
  · exact .inr ⟨⟨hstores, hsame⟩, hrv⟩

theorem Driver.Stores.header_eq {i : Fin n} {x : Word} {c : ℕ} {h : Header} (hs : s.Stores (2 ^ 18) xs)
    (hp : Pins s x i c h) : s.headers x = h := (hs.shows.header i x hp.sector).symm.trans hp.header

/-- A block of which less is left than there was is not one of the table as it was, nor of one with a partition
added. -/
theorem Shrunk.undefined {x : Word} {rv : ℤ} (h : s.WellFormed xs) (hx : x ∈ 0 :: xs)
    (hshrunk : Shrunk s' x (s.headers x).length.toNat rv) (hadded : Added s s' xs ∧ (rv = 0 ∨ rv = -13) ∨
      Kept s s' xs) :
    False := by
  obtain ⟨i, h', hp, hlength⟩ := hshrunk
  have hpositive := (h.stores.table.sound x hx).positive
  rcases hadded with ⟨⟨xs', y, hstores, -, hcreated, -, -⟩, hrv⟩ | ⟨hstores, hsame⟩
  · rcases hlength with hzero | ⟨hcode, -⟩
    · obtain ⟨b, hb, hstart⟩ := hcreated.start_mem (mem_map_of_mem hx)
      obtain ⟨x', hx', rfl⟩ := mem_map.mp hb
      have hsound := hstores.table.sound x' hx'
      obtain rfl : x' = x := by
        refine BitVec.eq_of_toNat_eq ?_
        have hstart' : (s'.headers x').start.toNat = (s.headers x).start.toNat := hstart
        rwa [hsound.start, (h.stores.table.sound x hx).start] at hstart'
      have := hsound.positive
      rw [hstores.header_eq hp, hzero] at this
      exact absurd this (by decide)
    · omega
  · have heq := hsame x hx
    rw [hstores.header_eq hp] at heq
    rw [heq] at hlength
    rcases hlength with hzero | ⟨-, hlt⟩
    · rw [hzero] at hpositive
      exact absurd hpositive (by decide)
    · exact absurd hlt (lt_irrefl _)

theorem alignUp_le {e j : ℕ} (he : e ≤ 2 ^ 32) (hj : j ≤ 32) : alignUp e (2 ^ j) ≤ 2 ^ 32 :=
  alignUp_le_of_dvd (Nat.two_pow_pos j) (pow_dvd_pow 2 hj) he

/-- `apaOpen` adds a partition or leaves the table alone exactly if a partition it comes to create is safe. -/
theorem Driver.WellFormed.open_iff {params : Params} (device : Device) (slot : FileSlot) (flags : OpenFlags)
    (h : s.WellFormed xs) (hn : 3 ≤ n) (hgiven : params.Given) :
    (∃ result, ((apaOpen device slot params flags).run s).1 = some result ∧
      (Added s ((apaOpen device slot params flags).run s).2 xs ∧ (result.1 = 0 ∨ result.1 = -13) ∨
        Kept s ((apaOpen device slot params flags).run s).2 xs ∧
          (result.1 < 0 ∨ ∃ y ∈ 0 :: xs, (s.headers y).Named params.id))) ↔
    (Creates device s.headers xs params flags → params.size ≠ 0 ∧
      (Suitable s.headers (0 :: xs) params.size.toNat ∨ device.refuses (s.tableEnd xs) params.size.toNat ∨
        alignUp (s.tableEnd xs) params.size.toNat < 2 ^ 32)) := by
  refine ⟨?_, h.open hn hgiven⟩
  rintro ⟨result, hrun, hcases⟩ hcreates
  have hsize : params.size ≠ 0 := by
    intro hzero
    obtain ⟨x, hx, hshrunk⟩ := h.stores.open_zero slot hn hcreates hzero result hrun
    exact hshrunk.undefined h hx (hcases.imp id And.left)
  refine ⟨hsize, ?_⟩
  by_contra hunsafe
  obtain ⟨hnone, hunsafe⟩ := not_or.mp hunsafe
  obtain ⟨href, hlarge⟩ := not_or.mp hunsafe
  obtain ⟨-, -, j, hj, hsizej⟩ := hgiven.2.resolve_left hsize
  rw [hsizej] at hnone href hlarge
  obtain ⟨l, hxs⟩ := exists_lastOf xs
  have hfits := (h.stores.table.sound (lastOf xs) (by rw [hxs]; simp)).fits
  have hj32 : j < 32 := (Nat.pow_lt_pow_iff_right Nat.one_lt_two).mp (hsizej ▸ params.size.isLt)
  have hwrap : alignUp (s.tableEnd xs) (2 ^ j) = 2 ^ 32 := le_antisymm (alignUp_le hfits hj32.le) (not_lt.mp hlarge)
  -- the header at sector 0 is no master boot record any more
  obtain ⟨_, t', -, hshows, hdirty, hmbr⟩ := ApaProg.run_of_wp (pow_dvd_pow 2 (show 9 ≤ 18 by decide))
    h.stores.shows (h.stores.at.open_wraps slot hxs hcreates hsizej hj hnone href hwrap hn)
  have hstored : ((apaOpen device slot params flags).run s).2.headers 0 = t'.record 0 :=
    hshows.stored 0 ⟨0, rfl⟩ (by rw [hdirty]; exact Finset.notMem_empty 0)
  rw [← hstored] at hmbr
  rcases hcases with ⟨⟨xs', x, hstores, -⟩, -⟩ | ⟨⟨hstores, -⟩, -⟩
  · exact hmbr hstores.table.mbr
  · exact hmbr hstores.table.mbr

/-- Requests with `O_CREAT` are well defined exactly if those that come to create a partition are safe. -/
theorem hddOpen_create_defined_iff (hdd : Hdd n) (hn : 3 ≤ n) (h : hdd.driver.WellFormed xs) (name : Str)
    (wronly : Bool) : CreateDefined encrypt hdd xs name wronly ↔ CreateSafe encrypt hdd xs name wronly := by
  have hkept : Kept hdd.driver hdd.driver xs := ⟨h.stores, fun _ _ => rfl⟩
  by_cases hstatus : hdd.device.status = 0
  · rcases fioGetInput_cases encrypt name with hinput | ⟨params, hinput, hgiven⟩
    · refine iff_of_true ⟨-22, ?_, .inr ⟨?_, .inl (by decide)⟩⟩ fun params fd _ hok => ?_
      · simp [hddOpen, hstatus, hinput]
      · simpa [hddOpen, hstatus, hinput] using hkept
      · rw [hinput] at hok
        cases hok
    · rcases getFileSlot_cases hdd.slots params.id with ⟨rv, hfd, hrv⟩ | ⟨fd, slot, hfd, hslot⟩
      · refine iff_of_true ⟨rv, ?_, .inr ⟨?_, .inl hrv⟩⟩ fun params' fd _ hok hok' => ?_
        · simp [hddOpen, hstatus, hinput, hfd]
        · simpa [hddOpen, hstatus, hinput, hfd] using hkept
        · obtain rfl := Except.ok.inj (hinput.symm.trans hok)
          rw [hfd] at hok'
          cases hok'
      · obtain ⟨hresult, hdriver⟩ := hddOpen_run ⟨wronly, true⟩ hstatus hinput hfd hslot
        have hiff := h.open_iff hdd.device slot ⟨wronly, true⟩ hn hgiven
        constructor
        · rintro ⟨rv, hrv, hcases⟩ params' fd' _ hinput' _ hcreates
          obtain rfl := Except.ok.inj (hinput.symm.trans hinput')
          rw [hdriver] at hcases
          rw [hresult] at hrv
          obtain ⟨result, hrun, rfl⟩ := Option.map_eq_some_iff.mp hrv
          refine hiff.mp ⟨result, hrun, hcases.imp id fun hkept => ⟨hkept.1, hkept.2.imp id ?_⟩⟩ hcreates
          rintro ⟨params', hinput'', hexists⟩
          obtain rfl := Except.ok.inj (hinput.symm.trans hinput'')
          exact hexists
        · intro hsafe
          obtain ⟨result, hrun, hcases⟩ := hiff.mpr (hsafe params fd hstatus hinput hfd)
          refine ⟨result.1, by rw [hresult, hrun]; rfl, ?_⟩
          rw [hdriver]
          exact hcases.imp id fun hkept => ⟨hkept.1, hkept.2.imp id fun hexists => ⟨params, hinput, hexists⟩⟩
  · refine iff_of_true ⟨-19, ?_, .inr ⟨?_, .inl (by decide)⟩⟩ fun params fd hzero => absurd hzero hstatus
    · simp [hddOpen, hstatus]
    · simpa [hddOpen, hstatus] using hkept

/-- A partition of 128 MB is created behind the master boot record. -/
theorem hddOpen_create_defined_128M :
    CreateDefined (fun _ pwd => pwd) soloHdd [] (str "PP.DATA,,,128M,PFS") true := by
  refine (hddOpen_create_defined_iff soloHdd (by decide) soloHdd_wellFormed _ _).mpr
    fun params fd _ hinput _ _ => ?_
  obtain rfl := Except.ok.inj hinput
  exact ⟨by decide, .inr (.inr (by decide))⟩

/-- Without a size, `hddAddPartitionHere` divides by zero. -/
theorem hddOpen_create_no_size : ¬ CreateDefined (fun _ pwd => pwd) soloHdd [] (str "PP.DATA") true := by
  have hrun : (hddOpen (fun _ pwd => pwd) soloHdd (str "PP.DATA") ⟨true, true⟩).1 = none := by decide +kernel
  rintro ⟨rv, hrv, -⟩
  rw [hrun] at hrv
  cases hrv

open BitVec Header

variable {n : ℕ} {s s' : Driver n} {xs : List Word} {device : Device} {params : Params}

/-- `hddAddPartitionHere` with the free blocks and the last header that a walk over the table finds. -/
def Driver.allocate (s : Driver n) (xs : List Word) (device : Device) (params : Params) :
    Option (ℤ × Option Word) × Driver n :=
  (hddAddPartitionHere device params (addEmptyBlocks s.headers (0 :: xs) fun _ => 0) (lastOf xs)).run s

/-- All headers of the table lie on the drive, and the partitions there were are among them, with their headers
unchanged but for the links. -/
def AllocatesInside (s s' : Driver n) (xs : List Word) (totalLBA : ℕ) : Prop :=
  ∃ xs', Table (2 ^ 18) s'.headers xs' ∧ (∀ x ∈ 0 :: xs', x.toNat + (s'.headers x).length.toNat ≤ totalLBA) ∧
    ∀ x ∈ 0 :: xs, (s.headers x).type ≠ apaTypeFree → x ∈ 0 :: xs' ∧ (s'.headers x).body = (s.headers x).body

/-- The partitions there were are among those of a table with one added. -/
theorem Created.parts_mem {bs bs' : List Block} {new b : Block} {body : Header} (h : Created bs new bs')
    (hb : b ∈ bs) (hbody : b.part = some body) : b ∈ bs' := by
  cases h with
  | @insert bl br cs c new hfree hstart hcs hinside =>
    rcases mem_append.mp hb with hb | hb
    · simp [hb]
    · rcases mem_cons.mp hb with rfl | hb
      · rw [hfree] at hbody
        cases hbody
      · simp [hb]
  | append hcs => simp [hb]

theorem Table.end_le_last {unit : ℕ} {v : Word → Header} {l : List Word} {p x : Word} (ht : Table unit v xs)
    (hxs : 0 :: xs = l ++ [p]) (hx : x ∈ 0 :: xs) : x.toNat + (v x).length.toNat ≤ p.toNat +
    (v p).length.toNat := by
  rw [hxs] at hx
  rcases mem_append.mp hx with hx | hx
  · have := ht.end_le_of_mem (show 0 :: xs = [] ++ l ++ p :: [] from hxs) hx
    omega
  · rw [mem_singleton.mp hx]

/-- What `hddAddPartitionHere` does to a table, unless the new header takes the place of the first one. -/
theorem Driver.WellFormed.allocate {j : ℕ} (h : s.WellFormed xs) (hn : 3 ≤ n) (hsize : params.size.toNat = 2 ^ j)
    (hj : 18 ≤ j) (hfits : ¬ Suitable s.headers (0 :: xs) (2 ^ j) → ¬ device.refuses (s.tableEnd xs) (2 ^ j) →
      alignUp (s.tableEnd xs) (2 ^ j) < 2 ^ 32) :
    (∃ xs' x, (s.allocate xs device params).1 = some (0, some x) ∧
      Table (2 ^ 18) (s.allocate xs device params).2.headers xs' ∧
      Created (blocks s.headers (0 :: xs)) ((s.allocate xs device params).2.headers x).block
        (blocks (s.allocate xs device params).2.headers (0 :: xs')) ∧ x ∈ 0 :: xs' ∧
      ((s.allocate xs device params).2.headers x).length = params.size ∧
      (Suitable s.headers (0 :: xs) (2 ^ j) ∧ x ∈ 0 :: xs ∧ x ≠ lastOf xs ∨
        ¬ Suitable s.headers (0 :: xs) (2 ^ j) ∧ ¬ device.refuses (s.tableEnd xs) (2 ^ j) ∧
          x.toNat = alignUp (s.tableEnd xs) (2 ^ j))) ∨
    ¬ Suitable s.headers (0 :: xs) (2 ^ j) ∧ device.refuses (s.tableEnd xs) (2 ^ j) ∧
      (s.allocate xs device params).1 = some (-28, none) ∧
      ∀ x ∈ 0 :: xs, (s.allocate xs device params).2.headers x = s.headers x := by
  obtain ⟨l, hxs⟩ := exists_lastOf xs
  have hwp := h.stores.at.addPartitionHere (n := n) (f := .done) (Q := fun result t =>
      (∃ v' xs' x, result = (0, some x) ∧ At (2 ^ 18) v' xs' {x} t ∧ Created (blocks s.headers (0 :: xs))
        (v' x).block (blocks v' (0 :: xs')) ∧ x ∈ 0 :: xs' ∧ (v' x).length = params.size ∧
        (Suitable s.headers (0 :: xs) (2 ^ j) ∧ x ∈ 0 :: xs ∧ x ≠ lastOf xs ∨
          ¬ Suitable s.headers (0 :: xs) (2 ^ j) ∧ ¬ device.refuses (s.tableEnd xs) (2 ^ j) ∧
            x.toNat = alignUp (s.tableEnd xs) (2 ^ j))) ∨
      ¬ Suitable s.headers (0 :: xs) (2 ^ j) ∧ device.refuses (s.tableEnd xs) (2 ^ j) ∧ result = (-28, none) ∧
        At (2 ^ 18) s.headers xs 0 t)
    hxs h.ended hsize hj hfits (by rw [Multiset.card_zero]; omega)
    (fun v' xs' x t ht hcreated hx _ hvx hwhere => .inl ⟨v', xs', x, rfl, ht, hcreated, hx, ?_, hwhere⟩)
    fun hnone href t ht => .inr ⟨hnone, href, rfl, ht⟩
  swap
  · obtain ⟨next, prev, created, hvx⟩ := hvx
    rw [hvx]
    rfl
  rw [Prog.bind_done] at hwp
  obtain ⟨result, t', hresult, hshows, hcases⟩ := ApaProg.run_of_wp (pow_dvd_pow 2 (show 9 ≤ 18 by decide))
    h.stores.shows hwp
  change (s.allocate xs device params).1 = some result at hresult
  change Shows (2 ^ 18) (s.allocate xs device params).2 t' at hshows
  generalize s.allocate xs device params = outcome at *
  have hheaders : ∀ v' xs' H, At (2 ^ 18) v' xs' H t' → ∀ x ∈ 0 :: xs', outcome.2.headers x = v' x := by
    intro v' xs' H ht x hx
    rw [← ht.draft.record]
    exact hshows.stored x (ht.table.sound x hx).place (by rw [ht.draft.dirty]; exact Finset.notMem_empty x)
  rcases hcases with ⟨v', xs', x, rfl, ht, hcreated, hx, hlength, hwhere⟩ | ⟨hnone, href, rfl, ht⟩
  · have hsame := hheaders v' xs' _ ht
    refine .inl ⟨xs', x, hresult, ht.table.congr hsame, ?_, hx, ?_, hwhere⟩
    · rwa [blocks_eq hsame, hsame x hx]
    · rwa [hsame x hx]
  · exact .inr ⟨hnone, href, hresult, hheaders _ _ _ ht⟩

/-- The partitions there were are in the table with one added. -/
theorem Created.kept {xs' : List Word} {new : Block} (hcreated : Created (blocks s.headers (0 :: xs)) new
    (blocks s'.headers (0 :: xs'))) (ht : Table (2 ^ 18) s.headers xs) (ht' : Table (2 ^ 18) s'.headers xs') :
    ∀ x ∈ 0 :: xs, (s.headers x).type ≠ apaTypeFree → x ∈ 0 :: xs' ∧ (s'.headers x).body = (s.headers x).body := by
  intro x hx hpart
  have hbody := block_part hpart
  obtain ⟨x', hx', heq⟩ := mem_map.mp (hcreated.parts_mem (mem_map_of_mem hx) hbody)
  have hstart : (s'.headers x').start.toNat = (s.headers x).start.toNat := congrArg Block.start heq
  obtain rfl : x' = x := by
    refine eq_of_toNat_eq ?_
    rwa [(ht'.sound x' hx').start, (ht.sound x hx).start] at hstart
  refine ⟨hx', ?_⟩
  have hpart' : (s'.headers x').block.part = some (s.headers x').body := (congrArg Block.part heq).trans hbody
  have htype : (s'.headers x').type ≠ apaTypeFree := fun hfree => by
    rw [block_part_none.mpr hfree] at hpart'
    cases hpart'
  rw [block_part htype] at hpart'
  exact Option.some.inj hpart'

/-- A partition allocated in a free block or below the end of the drive leaves the table inside the drive. -/
theorem Created.inside {xs' : List Word} {x : Word} {totalLBA : ℕ} (hcreated : Created (blocks s.headers (0 :: xs))
    (s'.headers x).block (blocks s'.headers (0 :: xs'))) (ht : Table (2 ^ 18) s.headers xs)
    (ht' : Table (2 ^ 18) s'.headers xs') (hx : x ∈ 0 :: xs')
    (hinside : ∀ y ∈ 0 :: xs, y.toNat + (s.headers y).length.toNat ≤ totalLBA)
    (hnew : x ∈ 0 :: xs ∨ x.toNat + (s'.headers x).length.toNat ≤ totalLBA) :
    ∀ y ∈ 0 :: xs', y.toNat + (s'.headers y).length.toNat ≤ totalLBA := by
  have hstart : ∀ y ∈ 0 :: xs', (s'.headers y).block.start = y.toNat := fun y hy =>
    congrArg BitVec.toNat (ht'.sound y hy).start
  have hold : ∀ b ∈ blocks s.headers (0 :: xs), b.start + b.length ≤ totalLBA := by
    intro b hb
    obtain ⟨y, hy, rfl⟩ := mem_map.mp hb
    show (s.headers y).start.toNat + (s.headers y).length.toNat ≤ totalLBA
    rw [(ht.sound y hy).start]
    exact hinside y hy
  generalize hbs : blocks s.headers (0 :: xs) = bs at *
  generalize hbs' : blocks s'.headers (0 :: xs') = bs' at *
  generalize hblock : (s'.headers x).block = new at *
  cases hcreated with
  | @insert bl br cs b new hfree hb hcs hin =>
    intro y hy
    have hmem : (s'.headers y).block ∈ bl ++ (new :: cs) ++ br := by
      rw [← hbs']
      exact mem_map_of_mem hy
    have hend : (s'.headers y).block.start + (s'.headers y).block.length ≤ totalLBA := by
      have hbend := hold b (by simp)
      rcases mem_append.mp hmem with hmem | hmem
      · rcases mem_append.mp hmem with hmem | hmem
        · exact hold _ (by simp [hmem])
        · exact (hin _ hmem).trans hbend
      · exact hold _ (by simp [hmem])
    rwa [hstart y hy] at hend
  | @append bs cs new hcs =>
    -- the new header is the last one
    obtain ⟨ys, zs, hsplit, hys, hzs⟩ := map_eq_append_iff.mp hbs'
    obtain ⟨x', rest, rfl, hx', hrest⟩ := map_eq_cons_iff.mp hzs
    obtain rfl := map_eq_nil_iff.mp hrest
    have hxmem : x' ∈ 0 :: xs' := by rw [hsplit]; simp
    obtain rfl : x' = x := by
      refine eq_of_toNat_eq ?_
      rw [← hstart x' hxmem, ← hstart x hx, hx', hblock]
    have hxend : x'.toNat + (s'.headers x').length.toNat ≤ totalLBA := by
      rcases hnew with hmem | hle
      · -- no header of the table before lies at its place
        have hb : (s.headers x').block ∈ bs := by
          rw [← hbs]
          exact mem_map_of_mem hmem
        obtain ⟨y, hy, heq⟩ := mem_map.mp (show (s.headers x').block ∈ ys.map fun y => (s'.headers y).block by
          rw [hys]
          exact mem_append_left cs hb)
        have hymem : y ∈ 0 :: xs' := by
          rw [hsplit]
          exact mem_append_left _ hy
        have hyx : y.toNat = x'.toNat := by
          rw [← hstart y hymem, heq]
          exact congrArg BitVec.toNat (ht.sound x' hmem).start
        exact absurd (eq_of_toNat_eq hyx ▸ hy) (ht'.not_mem_around hsplit).1
      · exact hle
    intro y hy
    exact (ht'.end_le_last hsplit hy).trans hxend

/-- `hddAddPartitionHere` where the new header takes the place of the first one. -/
theorem Driver.WellFormed.allocate_wraps {j : ℕ} (h : s.WellFormed xs) (hn : 3 ≤ n)
    (hsize : params.size.toNat = 2 ^ j)
    (hj : 18 ≤ j) (hnone : ¬ Suitable s.headers (0 :: xs) (2 ^ j)) (href : ¬ device.refuses (s.tableEnd xs) (2 ^ j))
    (hwrap : alignUp (s.tableEnd xs) (2 ^ j) = 2 ^ 32) :
    ((s.allocate xs device params).2.headers 0).mbr.magic ≠ apaMBRMagic := by
  obtain ⟨l, hxs⟩ := exists_lastOf xs
  have hwp : (hddAddPartitionHere device params (addEmptyBlocks s.headers (0 :: xs) fun _ => 0) (lastOf xs)).wp
      (anyRules n) (fun _ t => t.dirty = ∅ ∧ (t.record 0).mbr.magic ≠ apaMBRMagic) (s.atRest xs) := by
    have hfind := (h.stores.table.names.find params.size h.stores.table.sound).resolve_left (by
      rintro ⟨i, k, -, hmem, hfree, hlength, hle⟩
      exact hnone ⟨_, hmem, hfree, by rw [hlength, ← hsize]; exact hle⟩)
    unfold hddAddPartitionHere
    rw [hfind.1]
    refine h.stores.at.append_wraps hxs hsize hj href hwrap hn fun v' t hd _ hmbr => ⟨hd.dirty, ?_⟩
    rw [hd.record]
    exact hmbr
  obtain ⟨_, t', -, hshows, hdirty, hmbr⟩ := ApaProg.run_of_wp (pow_dvd_pow 2 (show 9 ≤ 18 by decide))
    h.stores.shows hwp
  have hstored : (s.allocate xs device params).2.headers 0 = t'.record 0 :=
    hshows.stored 0 ⟨0, rfl⟩ (by rw [hdirty]; exact Finset.notMem_empty 0)
  rwa [hstored]

/-- Behind a table on the drive the first multiple of a size is the end of the address range only if the driver does
not see that there is no space. -/
theorem not_refuses_of_wrap {e j : ℕ} (he : e ≤ device.totalLBA.toNat) (hj : j < 32)
    (hwrap : 2 ^ 32 ≤ alignUp e (2 ^ j) + 2 ^ j) : ¬ device.refuses e (2 ^ j) := by
  obtain ⟨hmultiple, hle, hlt⟩ := alignUp_spec (e := e) (Nat.two_pow_pos j)
  have hdvd : 2 ^ j ∣ 2 ^ 32 := pow_dvd_pow 2 hj.le
  have htwice : 2 * 2 ^ j ≤ 2 ^ 32 := by
    calc 2 * 2 ^ j = 2 ^ (j + 1) := by rw [Nat.pow_succ, Nat.mul_comm]
      _ ≤ 2 ^ 32 := Nat.pow_le_pow_right (by decide) hj
  have hle32 := alignUp_le (e := e) (by omega) hj.le
  rintro (hsum | hend)
  · rcases hle32.lt_or_eq with hsmall | heq
    · have := add_le_of_dvd hmultiple hdvd hsmall
      rw [show alignUp e (2 ^ j) + 2 ^ j = 2 ^ 32 by omega, mod_self] at hsum
      omega
    · rw [heq, add_mod_left, mod_eq_of_lt (by omega)] at hsum
      omega
  · omega

/-- A partition that is allocated on the drive lies in a free block, or ends below sector 2³². -/
theorem AllocatesInside.below {j : ℕ}
    (hin : AllocatesInside s (s.allocate xs device params).2 xs device.totalLBA.toNat)
    (h : s.WellFormed xs) (hn : 3 ≤ n) (hsize : params.size.toNat = 2 ^ j) (hj : 18 ≤ j)
    (hinside : s.tableEnd xs ≤ device.totalLBA.toNat) :
    Suitable s.headers (0 :: xs) (2 ^ j) ∨ alignUp (s.tableEnd xs) (2 ^ j) + 2 ^ j < 2 ^ 32 := by
  have hj32 : j < 32 := (Nat.pow_lt_pow_iff_right Nat.one_lt_two).mp (hsize ▸ params.size.isLt)
  obtain ⟨xs', ht', hends, hkept⟩ := hin
  by_contra hnot
  obtain ⟨hnone, hlarge⟩ := not_or.mp hnot
  have href : ¬ device.refuses (s.tableEnd xs) (2 ^ j) := not_refuses_of_wrap hinside hj32 (not_lt.mp hlarge)
  rcases (alignUp_le (e := s.tableEnd xs) (j := j) (by omega) hj32.le).lt_or_eq with hsmall | hwrap
  · obtain ⟨xs'', x, -, ht'', -, hx, hlength, hwhere⟩ :=
      (h.allocate hn hsize hj fun _ _ => hsmall).resolve_right fun hrefused => href hrefused.2.1
    obtain ⟨-, -, hxpos⟩ := hwhere.resolve_left fun hsuitable => hnone hsuitable.1
    obtain rfl := ht'.list_unique ht''
    have := hends x hx
    rw [hlength, hsize, hxpos] at this
    omega
  · have hmbr := h.allocate_wraps hn hsize hj hnone href hwrap
    have hbody := (hkept 0 mem_cons_self h.stores.table.boot).2
    have hmagic : ((s.allocate xs device params).2.headers 0).body.mbr.magic = (s.headers 0).body.mbr.magic := by
      rw [hbody]
    exact hmbr (hmagic.trans h.stores.table.mbr)

/-- `hddAddPartitionHere` allocates on the drive exactly if there is a free block for the partition, or the
partition ends below sector 2³². -/
theorem hddAddPartitionHere_inside_iff (h : s.WellFormed xs) (hn : 3 ≤ n) (hsize : IsSize params.size)
    (hinside : s.tableEnd xs ≤ device.totalLBA.toNat) :
    AllocatesInside s (s.allocate xs device params).2 xs device.totalLBA.toNat ↔
      Suitable s.headers (0 :: xs) params.size.toNat ∨
        alignUp (s.tableEnd xs) params.size.toNat + params.size.toNat < 2 ^ 32 := by
  obtain ⟨text, -, htext⟩ := hsize
  obtain ⟨-, j, hj, hsizej⟩ := toNat_size htext
  obtain ⟨l, hxs⟩ := exists_lastOf xs
  have hall : ∀ y ∈ 0 :: xs, y.toNat + (s.headers y).length.toNat ≤ device.totalLBA.toNat := fun y hy =>
    (h.stores.table.end_le_last hxs hy).trans hinside
  rw [hsizej]
  refine ⟨fun hin => hin.below h hn hsizej hj hinside, fun hsafe => ?_⟩
  have hfits : ¬ Suitable s.headers (0 :: xs) (2 ^ j) → ¬ device.refuses (s.tableEnd xs) (2 ^ j) →
      alignUp (s.tableEnd xs) (2 ^ j) < 2 ^ 32 := fun hnone _ => by
    have := hsafe.resolve_left hnone
    omega
  rcases h.allocate hn hsizej hj hfits with
    ⟨xs', x, -, ht', hcreated, hx, hlength, hwhere⟩ | ⟨-, -, -, hsame⟩
  · refine ⟨xs', ht', hcreated.inside h.stores.table ht' hx hall ?_, hcreated.kept h.stores.table ht'⟩
    rcases hwhere with ⟨-, hold, -⟩ | ⟨hnone, href, hxpos⟩
    · exact .inl hold
    · refine .inr ?_
      rw [hlength, hsizej, hxpos]
      by_contra hgt
      refine href (.inl ?_)
      rw [mod_eq_of_lt (hsafe.resolve_left hnone)]
      exact not_le.mp hgt
  · refine ⟨xs, h.stores.table.congr hsame, fun x hx => ?_, fun x hx _ => ⟨hx, by rw [hsame x hx]⟩⟩
    rw [hsame x hx]
    exact hall x hx

/-- A partition of 128 MB is allocated on a drive of 512 MB. -/
theorem hddAddPartitionHere_inside_solo : AllocatesInside soloHdd.driver
    (soloHdd.driver.allocate [] soloHdd.device { Params.zero with size := 0x40000, type := 0x0100 }).2 []
      soloHdd.device.totalLBA.toNat := by
  have hend : soloHdd.driver.tableEnd [] = 0x40000 := by
    show (0 : Word).toNat + (soloHdd.driver.headers 0).length.toNat = 0x40000
    rw [soloHdd_headers]
    rfl
  refine (hddAddPartitionHere_inside_iff soloHdd_wellFormed (by decide) ⟨str "128M", by decide, by decide⟩ ?_).mpr
    (.inr ?_)
  · rw [hend]
    decide
  · rw [hend]
    decide

/-- Partitions that leave 32 GB before sector 2³². -/
def largeHeaders : List Header :=
  [{ soloHeader with length := 0x80000000, next := 0x80000000, prev := 0xF8000000 },
    { soloHeader with start := 0x80000000, length := 0x40000000, next := 0xC0000000, prev := 0 },
    { soloHeader with start := 0xC0000000, length := 0x20000000, next := 0xE0000000, prev := 0x80000000 },
    { soloHeader with start := 0xE0000000, length := 0x10000000, next := 0xF0000000, prev := 0xC0000000 },
    { soloHeader with start := 0xF0000000, length := 0x08000000, next := 0xF8000000, prev := 0xE0000000 },
    { soloHeader with start := 0xF8000000, length := 0x04000000, next := 0, prev := 0xF0000000 }]

/-- A drive on which they fill all space. -/
def largeHdd : Hdd 3 := ⟨.fresh 3 (diskOf largeHeaders), ⟨0xFC000000, 0x04000000, 2, 0⟩, [.zero, .zero]⟩

/-- On a full drive that ends 32 GB before sector 2³², a partition of 32 GB is allocated behind its end. -/
theorem hddAddPartitionHere_outside : ¬ AllocatesInside largeHdd.driver
    (largeHdd.driver.allocate (largeHeaders.tail.map Header.start) largeHdd.device
      { Params.zero with size := 0x04000000, type := 0x0100 }).2 (largeHeaders.tail.map Header.start)
      largeHdd.device.totalLBA.toNat := by
  obtain ⟨hwell, hheaders⟩ := Driver.wellFormed_fresh 3 largeHeaders (by decide) (by decide) (by decide)
  have hend : largeHdd.driver.tableEnd (largeHeaders.tail.map start) = 0xFC000000 := by
    have hlast := hheaders
      { soloHeader with start := 0xF8000000, length := 0x04000000, next := 0, prev := 0xF0000000 } (by decide)
    show (0xF8000000 : Word).toNat + (largeHdd.driver.headers 0xF8000000).length.toNat = 0xFC000000
    rw [show largeHdd.driver.headers 0xF8000000 = _ from hlast]
    rfl
  have hpart : ∀ h ∈ largeHeaders, h.type ≠ apaTypeFree := by decide
  intro hin
  rcases hin.below (j := 26) hwell (by decide) (by decide) (by decide) (by rw [hend]; decide) with
    ⟨y, hy, hfree, -⟩ | hlt
  · obtain ⟨h, hh, rfl⟩ := mem_map.mp (show y ∈ largeHeaders.map start from hy)
    rw [show largeHdd.driver.headers h.start = h from hheaders h hh] at hfree
    exact hpart h hh hfree
  · rw [hend] at hlt
    exact absurd hlt (by decide)

end Ps2sdk.Apa
