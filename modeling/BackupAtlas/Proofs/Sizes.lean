import Mathlib.Algebra.Order.BigOperators.Group.List
import Mathlib.Algebra.Order.Group.Nat
import BackupAtlas.Proofs.Sealing
import BackupAtlas.Proofs.Tallies

namespace BackupAtlas

/-- Files whose figures can be written down. -/
structure FilesFit (files : List FileStat) : Prop where
  each : ∀ file ∈ files, file.Fits
  few : files.length < 2 ^ 64

instance (files : List FileStat) : Decidable (FilesFit files) :=
  decidable_of_iff ((∀ file ∈ files, file.Fits) ∧ files.length < 2 ^ 64)
    ⟨fun ⟨each, few⟩ => ⟨each, few⟩, fun fit => ⟨fit.each, fit.few⟩⟩

theorem FilesFit.left {files others : List FileStat} (fit : FilesFit (files ++ others)) : FilesFit files where
  each file member := fit.each file (List.mem_append_left _ member)
  few := by
    have total := fit.few
    rw [List.length_append] at total
    omega

theorem FilesFit.of_perm {files others : List FileStat} (fit : FilesFit files) (perm : files.Perm others) :
    FilesFit others where
  each file member := fit.each file (perm.mem_iff.mpr member)
  few := perm.length_eq ▸ fit.few

theorem FilesFit.right {files others : List FileStat} (fit : FilesFit (files ++ others)) : FilesFit others :=
  (fit.of_perm List.perm_append_comm).left

theorem sum_const {α : Type} (n : Nat) (list : List α) : (list.map fun _ => n).sum = n * list.length := by
  rw [List.map_const', List.sum_replicate_nat, Nat.mul_comm]

theorem le_sum_map {α : Type} (measure : α → Nat) {list : List α} {entry : α} (member : entry ∈ list) :
    measure entry ≤ (list.map measure).sum :=
  List.le_sum_of_mem (List.mem_map_of_mem member)

theorem mul_length_le {α : Type} {n : Nat} {measure : α → Nat} {values : List α}
    (least : ∀ value ∈ values, n ≤ measure value) :
    n * values.length ≤ (values.map measure).sum := by
  rw [← sum_const]
  exact List.sum_le_sum least

theorem length_flatMap_le {α : Type} (encode : α → Bytes) (measure : α → Nat) {values : List α}
    (short : ∀ value ∈ values, (encode value).length ≤ measure value) :
    (values.flatMap encode).length ≤ (values.map measure).sum := by
  rw [List.length_flatMap]
  exact List.sum_le_sum short

namespace Tally

/-- A measure of the tallies of files does not exceed that of the files one by one. -/
theorem gather_sum_le (measure : Tally → Nat) (joined : ∀ a b, measure (absorb a b) ≤ measure a + measure b)
    (id : FileStat → Nat) (files : List FileStat) :
    ((gather id files).entries.map measure).sum ≤ (files.map fun file => measure (ofFile (id file) file)).sum := by
  have bound : ((gather id files).entries.map measure).sum ≤ _ :=
    Book.sum_le (fun _ _ => joined _ _) (files.map fun file => Book.single (ofFile (id file) file) (good_ofFile _ _))
  rw [List.map_map] at bound
  exact bound

theorem forall_gather (holds : Tally → Prop) (closed : ∀ {a b}, holds a → holds b → holds (absorb a b))
    {id : FileStat → Nat} {files : List FileStat} (each : ∀ file ∈ files, holds (ofFile (id file) file)) :
    ∀ tally ∈ (gather id files).entries, holds tally := by
  refine Book.forall_sum (fun _ _ => closed) fun book member => ?_
  obtain ⟨file, listed, rfl⟩ := List.mem_map.mp member
  intro entry inside
  rw [List.mem_singleton.mp inside]
  exact each file listed

theorem length_gather (id : FileStat → Nat) (files : List FileStat) :
    (gather id files).entries.length ≤ files.length := by
  have bound := gather_sum_le (fun _ => 1) (fun _ _ => Nat.le_add_right _ _) id files
  rw [sum_const, sum_const] at bound
  omega

/-- Sums are words, so that they fit whatever is added. -/
theorem Fits.absorb {tally other : Tally} (fits : tally.Fits) (also : other.Fits) : (tally.absorb other).Fits where
  nameless := fits.nameless
  id := fits.id
  mtime := Nat.max_lt.mpr ⟨fits.mtime, also.mtime⟩
  files := Word.add_lt _ _
  size := Word.add_lt _ _

theorem fits_ofFile {file : FileStat} (fits : file.Fits) {k : Nat} (small : k < 2 ^ 32) : (ofFile k file).Fits where
  nameless := rfl
  id := small
  mtime := fits.mtime
  files := Nat.one_lt_two_pow (by decide)
  size := fits.size

/-- However large files are together, their figures can be written down. -/
theorem gather_fits {id : FileStat → Nat} {files : List FileStat} (fit : FilesFit files)
    (small : ∀ file ∈ files, id file < 2 ^ 32) : AllFit (gather id files).entries :=
  ⟨Nat.lt_of_le_of_lt (length_gather id files) fit.few, forall_gather Tally.Fits Fits.absorb fun file listed =>
    fits_ofFile (fit.each file listed) (small file listed)⟩

theorem length_encode_le {tally : Tally} (fits : tally.Fits) : (encode tally).length ≤ 40 := by
  have id := Varint.length_encode_le 9 (Nat.lt_trans fits.id (by decide))
  have mtime := Varint.length_encode_le 9 (Nat.lt_trans fits.mtime (by decide))
  have files := Varint.length_encode_le 9 (Nat.lt_trans fits.files (by decide))
  have size := Varint.length_encode_le 9 (Nat.lt_trans fits.size (by decide))
  simp only [encode, List.length_append]
  omega

theorem length_encodeAll_le {tallies : List Tally} (fit : AllFit tallies) :
    (encodeAll tallies).length ≤ 10 + 40 * tallies.length := by
  have count := Varint.length_encode_le 9 (Nat.lt_trans fit.1 (by decide))
  have each := length_flatMap_le encode (fun _ => 40) fun tally member => length_encode_le (fit.2 tally member)
  rw [sum_const] at each
  simp only [encodeAll, List.length_append]
  omega

end Tally

namespace DirStat

theorem ofFiles_fits {uid gid : Nat} {files : List FileStat} (user : uid < 2 ^ 32) (group : gid < 2 ^ 32)
    (fit : FilesFit files) : (ofFiles uid gid files).Fits := by
  rw [ofFiles_eq]
  exact ⟨user, group, Tally.gather_fits fit fun file member => (fit.each file member).uid,
    Tally.gather_fits fit fun file member => (fit.each file member).gid⟩

theorem length_encode_le {uid gid : Nat} {files : List FileStat} (user : uid < 2 ^ 32) (group : gid < 2 ^ 32)
    (fit : FilesFit files) : (encode (ofFiles uid gid files)).length ≤ 40 + 80 * files.length := by
  have fits := ofFiles_fits user group fit
  have users := Tally.length_encodeAll_le fits.users
  have groups := Tally.length_encodeAll_le fits.groups
  have first := Varint.length_encode_le 9 (Nat.lt_trans user (by decide))
  have second := Varint.length_encode_le 9 (Nat.lt_trans group (by decide))
  have few := Tally.length_gather (·.uid) files
  have also := Tally.length_gather (·.gid) files
  rw [ofFiles_eq] at users groups ⊢
  simp only [encode, List.length_append] at users groups ⊢
  omega

end DirStat

namespace Share

/-- Charges whose figures can be written down. -/
structure ChargesFit (charges : List (Nat × FileStat)) : Prop where
  rules : ∀ charge ∈ charges, charge.1 < 2 ^ 64
  files : FilesFit (charges.map (·.2))

/-- A measure of shares does not exceed that of the charges one by one. -/
theorem tabulate_sum_le (measure : Share → Nat)
    (joined : ∀ {a b}, ledger.good a → ledger.good b → measure (ledger.join a b) ≤ measure a + measure b)
    (charges : List (Nat × FileStat)) :
    ((tabulate charges).map measure).sum ≤ (charges.map fun charge => measure (ofFiles charge.1 [charge.2])).sum := by
  have bound : ((book charges).entries.map measure).sum ≤ _ :=
    Book.sum_le joined (charges.map fun charge => Book.single (ofFiles charge.1 [charge.2]) (good_ofFiles _ _))
  rw [List.map_map] at bound
  rw [tabulate_eq]
  exact bound

theorem forall_tabulate (holds : Share → Prop)
    (closed : ∀ {a b}, ledger.good a → ledger.good b → holds a → holds b → holds (ledger.join a b))
    {charges : List (Nat × FileStat)} (each : ∀ charge ∈ charges, holds (ofFiles charge.1 [charge.2])) :
    ∀ share ∈ tabulate charges, holds share := by
  rw [tabulate_eq]
  refine Book.forall_sum closed fun book member => ?_
  obtain ⟨charge, listed, rfl⟩ := List.mem_map.mp member
  intro entry inside
  rw [List.mem_singleton.mp inside]
  exact each charge listed

/-- One side of a share: its tallies of users or those of groups. -/
structure Side where
  tallies : Share → List Tally
  id : FileStat → Nat
  join : ∀ a b, tallies (ledger.join a b) = Tally.merge (tallies a) (tallies b)
  normal : ∀ share, ledger.good share → Tally.ledger.Normal (tallies share)
  single : ∀ rule file, tallies (ofFiles rule [file]) = [.ofFile (id file) file]
  small : ∀ file : FileStat, file.Fits → id file < 2 ^ 32

def Side.users : Side where
  tallies := Share.users
  id := (·.uid)
  join _ _ := rfl
  normal _ good := good.1
  single rule file := by rw [ofFiles_single]
  small _ fits := fits.uid

def Side.groups : Side where
  tallies := Share.groups
  id := (·.gid)
  join _ _ := rfl
  normal _ good := good.2
  single rule file := by rw [ofFiles_single]
  small _ fits := fits.gid

namespace Side

variable (side : Side)

theorem sum_join (measure : Tally → Nat)
    (joined : ∀ a b, measure (Tally.absorb a b) ≤ measure a + measure b) {a b : Share}
    (good : ledger.good a) (also : ledger.good b) : ((side.tallies (ledger.join a b)).map measure).sum ≤
      ((side.tallies a).map measure).sum + ((side.tallies b).map measure).sum := by
  rw [side.join, Tally.merge_normal _ (side.normal b also)]
  exact (side.normal a good).sum_merge (side.normal b also) fun _ _ => joined _ _

theorem sum_le (measure : Tally → Nat) (joined : ∀ a b, measure (Tally.absorb a b) ≤ measure a + measure b)
    (charges : List (Nat × FileStat)) :
    ((tabulate charges).map fun share => ((side.tallies share).map measure).sum).sum ≤
      (charges.map fun charge => measure (.ofFile (side.id charge.2) charge.2)).sum := by
  have bound := tabulate_sum_le (fun share => ((side.tallies share).map measure).sum)
    (fun good also => side.sum_join measure joined good also) charges
  simpa only [side.single, List.map_singleton, List.sum_singleton] using bound

theorem fits {charges : List (Nat × FileStat)} (fit : ChargesFit charges) :
    ∀ share ∈ tabulate charges, Tally.AllFit (side.tallies share) := by
  intro share member
  have few := fit.files.few
  have lengths := side.sum_le (fun _ => 1) (fun _ _ => Nat.le_add_right 1 1) charges
  have short := le_sum_map (fun share => ((side.tallies share).map fun _ => 1).sum) member
  rw [List.length_map] at few
  simp only [sum_const] at short lengths
  refine ⟨by omega, ?_⟩
  refine forall_tabulate (fun share => ∀ tally ∈ side.tallies share, tally.Fits) ?_ ?_ share member
  · intro a b good also first second
    rw [side.join, Tally.merge_normal _ (side.normal b also)]
    exact (side.normal a good).forall_merge (side.normal b also) (fun _ _ => Tally.Fits.absorb) first second
  · intro charge listed tally inside
    rw [side.single, List.mem_singleton] at inside
    have charged := fit.files.each charge.2 (List.mem_map_of_mem listed)
    rw [inside]
    exact Tally.fits_ofFile charged (side.small _ charged)

end Side

theorem tabulate_fits {charges : List (Nat × FileStat)} (fit : ChargesFit charges) :
    Tagging.Fits (.shares (tabulate charges)) := by
  have shares := tabulate_sum_le (fun _ => 1) (fun _ _ => Nat.le_add_right 1 1) charges
  rw [sum_const, sum_const] at shares
  have few := fit.files.few
  rw [List.length_map] at few
  refine ⟨by omega, fun share member => ⟨?_, Side.users.fits fit share member, Side.groups.fits fit share member⟩⟩
  exact forall_tabulate (fun share => share.rule < 2 ^ 64) (fun _ _ first _ => first) fit.rules share member

theorem length_encode_le {share : Share} (fits : share.Fits) :
    (encode share).length ≤ 30 + 40 * share.users.length + 40 * share.groups.length := by
  have rule := Varint.length_encode_le 9 (Nat.lt_trans fits.rule (by decide))
  have users := Tally.length_encodeAll_le fits.users
  have groups := Tally.length_encodeAll_le fits.groups
  simp only [encode, List.length_append]
  omega

theorem length_tabulate_le {charges : List (Nat × FileStat)} (fit : ChargesFit charges) :
    ((tabulate charges).flatMap encode).length ≤ 110 * charges.length := by
  have fits := (tabulate_fits fit).2
  have lengths := length_flatMap_le encode (fun share => 30 + 40 * share.users.length + 40 * share.groups.length)
    fun share member => length_encode_le (fits share member)
  have bound := tabulate_sum_le (fun share => 30 + 40 * share.users.length + 40 * share.groups.length) ?_ charges
  · have single : (charges.map fun charge => 30 + 40 * (ofFiles charge.1 [charge.2]).users.length +
        40 * (ofFiles charge.1 [charge.2]).groups.length) = charges.map fun _ => 110 :=
      List.map_congr_left fun charge _ => by rw [ofFiles_single]; rfl
    rw [single, sum_const] at bound
    omega
  · intro a b good also
    have users := Side.users.sum_join (fun _ => 1) (fun _ _ => Nat.le_add_right 1 1) good also
    have groups := Side.groups.sum_join (fun _ => 1) (fun _ _ => Nat.le_add_right 1 1) good also
    simp only [sum_const, Side.users, Side.groups] at users groups
    omega

end Share

namespace TaggedDir

theorem length_encode_le {dir : TaggedDir} (fits : dir.Fits) {most : Nat}
    (tagged : ∀ shares, dir.tagging = .shares shares → (shares.flatMap Share.encode).length ≤ most) :
    (encode dir).length ≤ 40 + most := by
  have user := Varint.length_encode_le 9 (Nat.lt_trans fits.uid (by decide))
  have group := Varint.length_encode_le 9 (Nat.lt_trans fits.gid (by decide))
  obtain ⟨uid, gid, tagging⟩ := dir
  obtain ⟨_, _, tag⟩ := fits
  cases tagging with
  | shares shares =>
    have count := Varint.length_encode_le 9 (Nat.lt_trans tag.1 (by decide))
    have rest := tagged shares rfl
    simp only [encode, List.length_append, List.length_cons] at user group ⊢
    omega
  | uniform rule =>
    have short := Varint.length_encode_le 9 (Nat.lt_trans tag (by decide))
    simp only [encode, List.length_append, List.length_cons] at user group ⊢
    omega

end TaggedDir
namespace Piece

/-- As many bytes as the piece and the entry for it take at most. -/
def room (piece : Piece) : Nat := piece.block.bytes.length + (Utf8.encode piece.name).length + 20

theorem names_starts (offset : Nat) (pieces : List Piece) : (starts offset pieces).map (·.1) = pieces.map (·.name) := by
  induction pieces generalizing offset with
  | nil => rfl
  | cons piece pieces ih => rw [starts, List.map_cons, List.map_cons, ih]

end Piece

namespace Block

theorem sum_room (pieces : List Piece) : (pieces.map Piece.room).sum =
    (pieces.flatMap (·.block.bytes)).length + (pieces.map fun piece => (Utf8.encode piece.name).length + 20).sum := by
  induction pieces with
  | nil => rfl
  | cons piece pieces ih =>
    simp only [List.map_cons, List.sum_cons, List.flatMap_cons, List.length_append, ih, Piece.room]
    omega

theorem length_ofNode_le {data : Bytes} {pieces : List Piece} (fits : (pieces.map Piece.room).sum < 2 ^ 64)
    (short : data.length < 2 ^ 64) :
    (ofNode data pieces).bytes.length ≤ (pieces.map Piece.room).sum + data.length + 30 := by
  have total := sum_room pieces
  generalize entriesEq : Piece.sort (Piece.starts 0 pieces) = entries
  have perm : entries.Perm (Piece.starts 0 pieces) := entriesEq ▸ Piece.sort_perm _
  have names : (entries.map fun entry => (Utf8.encode entry.1).length + 20).sum =
      (pieces.map fun piece => (Utf8.encode piece.name).length + 20).sum := by
    have listed := congrArg (List.map fun name => (Utf8.encode name).length + 20) (Piece.names_starts 0 pieces)
    rw [List.map_map, List.map_map] at listed
    rw [(perm.map _).sum_eq]
    exact congrArg List.sum listed
  have count : 20 * entries.length ≤ (entries.map fun entry => (Utf8.encode entry.1).length + 20).sum := by
    exact mul_length_le fun entry _ => Nat.le_add_left _ _
  have each : ∀ entry ∈ entries,
    (StoredTree.encodeEntry entry.1 ((pieces.flatMap (·.block.bytes)).length - entry.2)).length ≤
      (Utf8.encode entry.1).length + 20 := by
    intro entry member
    have named := le_sum_map (fun entry : String × Nat => (Utf8.encode entry.1).length + 20) member
    have length := Varint.length_encode_le 9 (show (Utf8.encode entry.1).length < 128 ^ 10 by omega)
    have back := Varint.length_encode_le 9
      (show (pieces.flatMap (·.block.bytes)).length - entry.2 < 128 ^ 10 by omega)
    simp only [StoredTree.encodeEntry, List.length_append]
    omega
  have written := length_flatMap_le _ _ each
  have below := Varint.length_encode_le 9 (show (pieces.flatMap (·.block.bytes)).length < 128 ^ 10 by omega)
  have payload := Varint.length_encode_le 9 (show data.length < 128 ^ 10 by omega)
  have counted := Varint.length_encode_le 9 (show entries.length < 128 ^ 10 by omega)
  have whole : (ofNode data pieces).bytes = pieces.flatMap (·.block.bytes) ++
      (Varint.encode (pieces.flatMap (·.block.bytes)).length ++ Varint.encode data.length ++ data ++
        Varint.encode entries.length ++ entries.flatMap fun entry => StoredTree.encodeEntry entry.1
          ((pieces.flatMap (·.block.bytes)).length - entry.2)) := by
    rw [← entriesEq]
    rfl
  rw [whole]
  simp only [List.length_append]
  omega

end Block
end BackupAtlas
