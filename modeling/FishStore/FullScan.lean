import FishStore.LogRecords
import FishStore.PersistentMemoryMalloc

/-!
# Full scans

`InternalFullScan` reads the log page by page, from the page of the tail downwards,
and each page record by record from its start. Pages below the head address come
from disk; there `AsyncFullScanFromDiskCallback` reads a page. Both loops trust the
headers they find, and take a word of zeros for empty space. The scan stops with the
page of the start address or with that of the begin address.

The scan is modelled on one state of the store. A record that is touched is given by
its address.
-/

namespace FishStore.FullScan

open Layout LogRecords Segments PersistentMemoryMalloc

/-- `Address::kMaxAddress`. -/
def kMaxAddress : ℕ := 2 ^ 48 - 1

/-- The loop over the records of a page that holds the given bytes, from an offset up
to the address `upTo`; records below `start` are passed over. -/
def scanPage (check : List ℕ → Bool) (mem : Bytes) (page start upTo : ℕ) : ℕ → ℕ → List ℕ
  | 0, _ => []
  | fuel + 1, o =>
    if address page o ≤ upTo then
      if word mem o = 0 then scanPage check mem page start upTo fuel (o + sizeofRecordInfo)
      else if address page o < start then
        scanPage check mem page start upTo fuel (o + (header mem o).size)
      else if (header mem o).invalid = false ∧ check (payload mem o) = true then
        address page o :: scanPage check mem page start upTo fuel (o + (header mem o).size)
      else scanPage check mem page start upTo fuel (o + (header mem o).size)
    else []

/-- What a full scan reads, and its arguments. -/
structure Scan where
  /-- `buffer_size_`. -/
  bufferSize : ℕ
  /-- The log allocator. -/
  hlog : State
  /-- The pages on disk. -/
  disk : ℕ → Bytes
  /-- `hlog.begin_address`. -/
  beginAddress : ℕ
  /-- `check` of the scan's context, on the payload of a record. -/
  check : List ℕ → Bool
  /-- `begin_addr`, the start address of the scan. -/
  startAddr : ℕ
  /-- `end_addr`. -/
  endAddr : ℕ

/-- The scan is over with this page. -/
def Scan.ends (c : Scan) (page : ℕ) : Bool :=
  decide (page = Layout.page c.startAddr ∨ page = Layout.page c.beginAddress)

/-- The page as `InternalFullScan` reads it, up to the address `upTo`. -/
def Scan.fromMemory (c : Scan) (page upTo : ℕ) : List ℕ :=
  scanPage c.check (c.hlog.frames (page % c.bufferSize)) page c.startAddr upTo kPageSize 0

/-- The page as `AsyncFullScanFromDiskCallback` reads it; it begins at the start
address, and so it tests no record against it. -/
def Scan.fromDisk (c : Scan) (page : ℕ) : List ℕ :=
  let first := if page = Layout.page c.startAddr then offset c.startAddr else 0
  let upTo := if page = Layout.page c.endAddr then offset c.endAddr else kMaxOffset
  scanPage c.check (c.disk page) page 0 (address page upTo) kPageSize first

/-- The pages from disk. -/
def Scan.diskPages (c : Scan) : ℕ → List ℕ
  | 0 => c.fromDisk 0
  | page + 1 => c.fromDisk (page + 1) ++ if c.ends (page + 1) then [] else c.diskPages page

/-- The loop of `InternalFullScan` at a page, up to the address `upTo`. -/
def Scan.memoryPages (c : Scan) : ℕ → ℕ → List ℕ
  | 0, upTo => if 0 < Layout.page c.hlog.headAddress then c.diskPages 0 else c.fromMemory 0 upTo
  | page + 1, upTo =>
    if page + 1 < Layout.page c.hlog.headAddress then c.diskPages (page + 1)
    else c.fromMemory (page + 1) upTo ++
      if c.ends (page + 1) then [] else c.memoryPages page (address page kMaxOffset)

/-- The address up to which `InternalFullScan` reads. -/
def Scan.toAddress (c : Scan) : ℕ :=
  if c.endAddr < c.hlog.getTailAddress then c.endAddr else c.hlog.getTailAddress

/-- `InternalFullScan` with the callbacks that it starts: the records touched. -/
def Scan.internalFullScan (c : Scan) : List ℕ := c.memoryPages (Layout.page c.toAddress) c.toAddress

section

variable {c : Scan} {check : List ℕ → Bool} {mem : Bytes} {page start upTo fuel a o p q : ℕ}

/-- The record at the offset is touched. -/
def Touched (check : List ℕ → Bool) (mem : Bytes) (page start o : ℕ) : Prop :=
  word mem o ≠ 0 ∧ start ≤ address page o ∧ (header mem o).invalid = false ∧
    check (payload mem o) = true

instance : Decidable (Touched check mem page start o) := inferInstanceAs (Decidable (_ ∧ _))

/-- The loop touches what it should of what it visits. -/
theorem scanPage_eq : scanPage check mem page start upTo fuel o =
    ((visited (next mem) (upTo+1 - address page 0) fuel o).filter
      fun x => decide (Touched check mem page start x)).map (address page) := by
  induction fuel generalizing o with
  | zero => rfl
  | succ fuel ih =>
    have hle : address page o≤upTo ↔ o<upTo+1 - address page 0 := by
      unfold address
      omega
    simp only [scanPage,visited]
    by_cases hto : address page o≤upTo
    · rw [if_pos hto,if_pos (hle.mp hto)]
      by_cases hw : word mem o=0
      · have hnot : ¬Touched check mem page start o := fun h => h.1 hw
        rw [if_pos hw,ih,List.filter_cons_of_neg (by simpa using hnot),next,if_pos hw]
      · have hnext : next mem o=o+(header mem o).size := by rw [next,if_neg hw]
        rw [if_neg hw,hnext]
        by_cases hstart : address page o<start
        · have hnot : ¬Touched check mem page start o := fun h => not_lt.mpr h.2.1 hstart
          rw [if_pos hstart,ih,List.filter_cons_of_neg (by simpa using hnot)]
        · rw [if_neg hstart]
          by_cases hcheck : (header mem o).invalid=false ∧ check (payload mem o)=true
          · have hyes : Touched check mem page start o := ⟨hw,not_lt.mp hstart,hcheck⟩
            rw [if_pos hcheck,ih,List.filter_cons_of_pos (by simpa using hyes),List.map_cons]
          · have hnot : ¬Touched check mem page start o := fun h => hcheck h.2.2
            rw [if_neg hcheck,ih,List.filter_cons_of_neg (by simpa using hnot)]
    · rw [if_neg hto,if_neg (mt hle.mpr hto)]
      rfl

theorem page_address (h : o<kPageSize) : Layout.page (address page o)=page := by
  have hpos : 0<kPageSize := by decide
  unfold Layout.page address
  rw [mul_comm,Nat.mul_add_div hpos,Nat.div_eq_of_lt h,add_zero]

theorem offset_address (h : o<kPageSize) : offset (address page o)=o := by
  unfold offset address
  rw [mul_comm,Nat.mul_add_mod,Nat.mod_eq_of_lt h]

theorem address_page_offset (a : ℕ) : address (Layout.page a) (offset a)=a := by
  unfold address Layout.page offset
  rw [mul_comm]
  exact Nat.div_add_mod a kPageSize

theorem offset_lt (a : ℕ) : offset a<kPageSize := Nat.mod_lt _ (by decide)

/-- What the loop over a page touches. -/
theorem mem_scanPage (hto : upTo≤address page kMaxOffset) :
    a ∈ scanPage check mem page start upTo kPageSize o ↔ Layout.page a=page ∧ a≤upTo ∧
      Leads (next mem) o (offset a) ∧ Touched check mem page start (offset a) := by
  have hsize : kPageSize=kMaxOffset+1 := rfl
  have hbound : upTo+1 - address page 0≤kPageSize := by
    unfold address at hto ⊢
    omega
  rw [scanPage_eq,List.mem_map]
  refine ⟨?_,?_⟩
  · rintro ⟨x,hx,rfl⟩
    rw [List.mem_filter,mem_visited (lt_next mem) (by omega),decide_eq_true_eq] at hx
    obtain ⟨⟨hleads,hlt⟩,htouched⟩ := hx
    have hx : x<kPageSize := hlt.trans_le hbound
    rw [page_address hx,offset_address hx]
    refine ⟨rfl,?_,hleads,htouched⟩
    unfold address at hlt ⊢
    omega
  · rintro ⟨rfl,hle,hleads,htouched⟩
    refine ⟨offset a,?_,address_page_offset a⟩
    rw [List.mem_filter,mem_visited (lt_next mem) (by omega),decide_eq_true_eq]
    refine ⟨⟨hleads,?_⟩,htouched⟩
    have ha := address_page_offset a
    unfold address at ha ⊢
    omega

/-- The pages of a downward loop. -/
def descend (visit : ℕ → List ℕ) (ends : ℕ → Bool) : ℕ → List ℕ
  | 0 => visit 0
  | page + 1 => visit (page + 1) ++ if ends (page + 1) then [] else descend visit ends page

theorem mem_descend {visit : ℕ → List ℕ} {ends : ℕ → Bool} : a ∈ descend visit ends p ↔
    ∃ q≤p, (∀ r, q<r → r≤p → ends r=false) ∧ a ∈ visit q := by
  induction p with
  | zero =>
    refine ⟨fun h => ⟨0,le_rfl,fun r hr hr' => absurd (hr.trans_le hr') (lt_irrefl 0),h⟩,?_⟩
    rintro ⟨q,hq,-,ha⟩
    rw [Nat.le_zero.mp hq] at ha
    exact ha
  | succ p ih =>
    simp only [descend,List.mem_append]
    refine ⟨?_,?_⟩
    · rintro (h | h)
      · exact ⟨p+1,le_rfl,fun r hr hr' => absurd (hr.trans_le hr') (lt_irrefl _),h⟩
      · split_ifs at h with hend
        · cases h
        · obtain ⟨q,hq,hends,ha⟩ := ih.mp h
          refine ⟨q,hq.trans (Nat.le_succ p),fun r hr hr' => ?_,ha⟩
          rcases Nat.lt_or_eq_of_le hr' with hlt | rfl
          · exact hends r hr (Nat.lt_succ_iff.mp hlt)
          · exact Bool.eq_false_iff.mpr hend
    · rintro ⟨q,hq,hends,ha⟩
      rcases Nat.lt_or_eq_of_le hq with hlt | rfl
      · refine .inr ?_
        rw [if_neg (Bool.eq_false_iff.mp (hends (p+1) hlt le_rfl))]
        exact ih.mpr ⟨q,Nat.lt_succ_iff.mp hlt,fun r hr hr' =>
          hends r hr (hr'.trans (Nat.le_succ p)),ha⟩
      · exact .inl ha

/-- A page of the scan, from memory or from disk. -/
def Scan.visit (c : Scan) (upTo page : ℕ) : List ℕ :=
  if page < Layout.page c.hlog.headAddress then c.fromDisk page
  else c.fromMemory page (min upTo (address page kMaxOffset))

theorem diskPages_eq (h : p<Layout.page c.hlog.headAddress) : c.diskPages p=descend (c.visit upTo) c.ends p := by
  induction p with
  | zero => simp only [Scan.diskPages,descend,Scan.visit,if_pos h]
  | succ p ih =>
    simp only [Scan.diskPages,descend,Scan.visit,if_pos h]
    rw [ih (by omega)]

theorem descend_congr {visit visit' : ℕ → List ℕ} {ends : ℕ → Bool}
    (h : ∀ q≤p, visit' q=visit q) : descend visit' ends p=descend visit ends p := by
  induction p with
  | zero => exact h 0 le_rfl
  | succ p ih =>
    simp only [descend]
    rw [h _ le_rfl,ih fun q hq => h q (hq.trans (Nat.le_succ p))]

theorem address_lt {p q o o' : ℕ} (h : p<q) (ho : o<kPageSize) : address p o<address q o' := by
  have hmul : (p+1)*kPageSize≤q*kPageSize := Nat.mul_le_mul_right _ h
  unfold address
  rw [add_mul,one_mul] at hmul
  omega

/-- The pages come one after the other, first those in memory and then those on disk. -/
theorem memoryPages_eq (hle : upTo≤address p kMaxOffset) (hge : address p 0≤upTo) :
    c.memoryPages p upTo=descend (c.visit upTo) c.ends p := by
  induction p generalizing upTo with
  | zero =>
    simp only [Scan.memoryPages,descend,Scan.visit,min_eq_left hle]
    split_ifs <;> rfl
  | succ p ih =>
    simp only [Scan.memoryPages]
    split_ifs with hhead hend
    · exact diskPages_eq hhead
    · simp only [descend,Scan.visit,if_neg hhead,min_eq_left hle,hend,if_true]
    · have hlow : ∀ q≤p, c.visit (address p kMaxOffset) q=c.visit upTo q := by
        intro q hq
        have hq1 : address q kMaxOffset≤upTo := (address_lt (Nat.lt_succ_of_le hq) (by decide)).le.trans hge
        have hq2 : address q kMaxOffset≤address p kMaxOffset := Nat.add_le_add_right (Nat.mul_le_mul_right _ hq) _
        simp only [Scan.visit,min_eq_right hq1,min_eq_right hq2]
      rw [ih le_rfl (Nat.add_le_add_left (Nat.zero_le _) _),descend_congr hlow]
      simp only [descend,Scan.visit,if_neg hhead,min_eq_left hle,hend]
      rfl

theorem address_page_le (a : ℕ) : address (Layout.page a) 0≤a := by
  rw [←address_page_offset a,page_address (offset_lt a)]
  exact Nat.add_le_add_left (Nat.zero_le _) _

theorem le_address_page (a : ℕ) : a≤address (Layout.page a) kMaxOffset := by
  have hlt := offset_lt a
  have heq := address_page_offset a
  have hsize : kPageSize=kMaxOffset+1 := rfl
  unfold address at heq ⊢
  omega

/-- The pages that a scan reads, one after the other. -/
theorem internalFullScan_eq : c.internalFullScan = descend (c.visit c.toAddress) c.ends (Layout.page c.toAddress) :=
  memoryPages_eq (le_address_page _) (address_page_le _)

theorem mem_fromMemory (hle : upTo≤address page kMaxOffset) : a ∈ c.fromMemory page upTo ↔ Layout.page a=page ∧ a≤upTo ∧
      Leads (next (c.hlog.frames (page%c.bufferSize))) 0 (offset a) ∧
      Touched c.check (c.hlog.frames (page%c.bufferSize)) page c.startAddr (offset a) :=
  mem_scanPage hle

/-- The address up to which a page is read from disk. -/
def Scan.diskLast (c : Scan) (page : ℕ) : ℕ :=
  address page (if page = Layout.page c.endAddr then offset c.endAddr else kMaxOffset)

/-- The offset from which a page is read from disk. -/
def Scan.diskFirst (c : Scan) (page : ℕ) : ℕ :=
  if page = Layout.page c.startAddr then offset c.startAddr else 0

theorem diskLast_le : c.diskLast page≤address page kMaxOffset := by
  refine Nat.add_le_add_left ?_ _
  split_ifs
  · exact Nat.le_of_lt_succ (offset_lt _)
  · exact le_rfl

theorem mem_fromDisk : a ∈ c.fromDisk page ↔ Layout.page a=page ∧ a≤c.diskLast page ∧
    Leads (next (c.disk page)) (c.diskFirst page) (offset a) ∧ Touched c.check (c.disk page) page 0 (offset a) :=
  mem_scanPage diskLast_le

theorem page_of_mem_visit (h : a ∈ c.visit upTo page) : Layout.page a=page := by
  unfold Scan.visit at h
  split_ifs at h
  · exact (mem_fromDisk.mp h).1
  · exact ((mem_fromMemory (min_le_right _ _)).mp h).1

end

end FishStore.FullScan
