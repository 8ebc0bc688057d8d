import RoblSampleCodes.Rtnetlink

namespace RoblSampleCodes.InterfaceTable

open ByteMemory AlignedRecords Rtnetlink

/-- The lengths of `hw_addr` and `ipv4_addrs` are `hw_addr_len` and `ipv4_addr_count`. -/
structure Interface where
  index : BitVec 32
  name : List Byte
  flags : BitVec 32
  hwAddr : List Byte
  ipv4Addrs : List (List Byte)
  deriving DecidableEq

def iflaMax : Nat := 65

def iflaAddress : Nat := 1

def iflaIfname : Nat := 3

def ifaMax : Nat := 11

def ifaAddress : Nat := 1

def ifNameSize : Nat := 16

def inetAddrstrlen : Nat := 16

inductive Field
  | index
  | name
  | flags
  | hwAddr
  | hwAddrLen
  | ipv4Addr (slot : Nat)
  | ipv4AddrCount

def Field.size : Field → Nat
  | .name => ifNameSize
  | .hwAddr => 8
  | .ipv4Addr slot => if slot < 10 then inetAddrstrlen else 0
  | .index | .flags | .hwAddrLen | .ipv4AddrCount => 4

structure Store where
  element : Nat
  field : Field
  length : Nat

def maxInterfaces : Nat := 128

def Store.Inside (s : Store) : Prop := s.element < maxInterfaces ∧ s.length ≤ s.field.size

instance (s : Store) : Decidable s.Inside := inferInstanceAs (Decidable (_ ∧ _))

/-- The bytes that `strcpy` writes, with the NUL. A string that is too long for every field
is cut after one byte too many. -/
def strcpyLength (mem : Memory) (src : Nat) : Nat := (cString mem src ifNameSize).length + 1

section Link

variable (mem : Memory) (nlh : Nat)

def ifiIndex : BitVec 32 := word32 mem (nlmsgData nlh + 4)

def ifiFlags : BitVec 32 := word32 mem (nlmsgData nlh + 8)

def linkTb : Nat → Option Nat := parseRtattr mem iflaMax (nlmsgData nlh + 16) (nlmsgLen mem nlh - 32)

def linkHwAddr : List Byte :=
  match linkTb mem nlh iflaAddress with
  | none => []
  | some rta => slice mem (rtaData rta) (rtaPayload mem rta)

def linkInterface (ifname : Nat) : Interface where
  index := ifiIndex mem nlh
  name := cString mem (rtaData ifname) ifNameSize
  flags := ifiFlags mem nlh
  hwAddr := linkHwAddr mem nlh
  ipv4Addrs := []

def linkStores (element ifname : Nat) : List Store :=
  [⟨element, .name, strcpyLength mem (rtaData ifname)⟩, ⟨element, .index, 4⟩, ⟨element, .flags, 4⟩,
    ⟨element, .ipv4AddrCount, 4⟩, ⟨element, .hwAddrLen, 4⟩,
    ⟨element, .hwAddr, (linkHwAddr mem nlh).length⟩]

/-- The body of the loop in `get_interfaces`. Its behaviour is undefined after a store
outside of the table. -/
def addLink (interfaces : List Interface) : Option (List Interface) :=
  if nlmsgType mem nlh = rtmNewlink then
    match linkTb mem nlh iflaIfname with
    | none => some interfaces
    | some ifname =>
      if ∀ s ∈ linkStores mem nlh interfaces.length ifname, s.Inside then
        some (interfaces ++ [linkInterface mem nlh ifname])
      else none
  else some interfaces

end Link

def decimal (n : Nat) : List Byte := ascii (String.ofList (Nat.toDigits 10 n))

def inetNtop (mem : Memory) (src : Nat) : List Byte :=
  decimal (mem src).toNat ++ ascii "." ++ decimal (mem (src + 1)).toNat ++ ascii "." ++
    decimal (mem (src + 2)).toNat ++ ascii "." ++ decimal (mem (src + 3)).toNat

section Address

variable (mem : Memory) (nlh : Nat)

def ifaIndex : BitVec 32 := word32 mem (nlmsgData nlh + 4)

def addressTb : Nat → Option Nat := parseRtattr mem ifaMax (nlmsgData nlh + 8) (nlmsgLen mem nlh - 24)

def addIp (element : Nat) (interface : Interface) : Option Interface :=
  if interface.index = ifaIndex mem nlh then
    match addressTb mem nlh ifaAddress with
    | none => some interface
    | some rta =>
      if interface.ipv4Addrs.length < 10 then
        let ip := inetNtop mem (rtaData rta)
        if (⟨element, .ipv4Addr interface.ipv4Addrs.length, ip.length + 1⟩ : Store).Inside ∧
            (⟨element, .ipv4AddrCount, 4⟩ : Store).Inside then
          some { interface with ipv4Addrs := interface.ipv4Addrs ++ [ip] }
        else none
      else some interface
  else some interface

def addIps : Nat → List Interface → Option (List Interface)
  | _, [] => some []
  | element, interface :: rest => do
    let interface ← addIp mem nlh element interface
    let rest ← addIps (element + 1) rest
    return interface :: rest

def addAddress (interfaces : List Interface) : Option (List Interface) :=
  if nlmsgType mem nlh = rtmNewaddr then addIps mem nlh 0 interfaces else some interfaces

end Address

def getInterfaces (buffer : Memory) (recvs : List (Option (List Byte))) :
    Option (Outcome × List Interface × List (Option (List Byte))) :=
  dump addLink buffer recvs []

def getIpAddresses (buffer : Memory) (recvs : List (Option (List Byte)))
    (interfaces : List Interface) : Option (Outcome × List Interface × List (Option (List Byte))) :=
  dump addAddress buffer recvs interfaces

/-- The program up to the printing of the table. Both dumps are read from one socket. It ends
without a table when `get_interfaces` fails. It is `none` after a store outside of the table. -/
def run (buffer buffer' : Memory) (recvs : List (Option (List Byte))) :
    Option (Outcome × List Interface) := do
  let (outcome, interfaces, recvs) ← getInterfaces buffer recvs
  if outcome = .done then
    let (outcome, interfaces, _) ← getIpAddresses buffer' recvs interfaces
    return (if outcome = .waiting then .waiting else .done, interfaces)
  else return (outcome, interfaces)

def linkName (mem : Memory) (nlh : Nat) : Option Nat :=
  if nlmsgType mem nlh = rtmNewlink then linkTb mem nlh iflaIfname else none

def announced (m : Memory × Nat) : Option Interface := (linkName m.1 m.2).map (linkInterface m.1 m.2)

def LinkFits (m : Memory × Nat) : Prop :=
  ∀ ifname, linkName m.1 m.2 = some ifname →
    (cString m.1 (rtaData ifname) ifNameSize).length < ifNameSize ∧ (linkHwAddr m.1 m.2).length ≤ 8

/-- At most as many named links as the table has elements, and each of them fits. -/
structure Fits (messages : List (Memory × Nat)) : Prop where
  count : messages.countP (fun m => (linkName m.1 m.2).isSome) ≤ maxInterfaces
  link : ∀ m ∈ messages, LinkFits m

theorem linkStores_inside (mem : Memory) (nlh element ifname : Nat) :
    (∀ s ∈ linkStores mem nlh element ifname, s.Inside) ↔
      element < maxInterfaces ∧ (cString mem (rtaData ifname) ifNameSize).length < ifNameSize ∧
        (linkHwAddr mem nlh).length ≤ 8 := by
  simp only [linkStores, List.forall_mem_cons, Store.Inside, Field.size, strcpyLength, Nat.le_refl,
    Nat.succ_le_iff, and_true, List.not_mem_nil, false_imp_iff, implies_true]
  tauto

theorem linkFits_iff {m : Memory × Nat} {ifname : Nat} (h : linkName m.1 m.2 = some ifname) :
    LinkFits m ↔ (cString m.1 (rtaData ifname) ifNameSize).length < ifNameSize ∧
      (linkHwAddr m.1 m.2).length ≤ 8 := by
  rw [LinkFits, h]
  exact ⟨fun hfits => hfits ifname rfl, fun hfits _ heq => Option.some.inj heq ▸ hfits⟩

theorem addLink_of_none {m : Memory × Nat} (h : linkName m.1 m.2 = none) (interfaces : List Interface) :
    addLink m.1 m.2 interfaces = some interfaces := by
  rw [linkName] at h
  rw [addLink]
  split
  · rename_i htype
    rw [if_pos htype] at h
    rw [h]
  · rfl

theorem addLink_of_some {m : Memory × Nat} {ifname : Nat} (h : linkName m.1 m.2 = some ifname)
    (interfaces : List Interface) : addLink m.1 m.2 interfaces =
      if ∀ s ∈ linkStores m.1 m.2 interfaces.length ifname, s.Inside then
        some (interfaces ++ [linkInterface m.1 m.2 ifname]) else none := by
  rw [linkName, Option.ite_none_right_eq_some] at h
  rw [addLink, if_pos h.1, h.2]

theorem addLink_eq_some_iff (m : Memory × Nat) (interfaces t : List Interface) :
    addLink m.1 m.2 interfaces = some t ↔
      ((linkName m.1 m.2).isSome → interfaces.length < maxInterfaces) ∧ LinkFits m ∧
        t = interfaces ++ (announced m).toList := by
  cases h : linkName m.1 m.2 with
  | none =>
    have hfits : LinkFits m := by
      intro ifname hifname
      rw [h] at hifname
      cases hifname
    rw [addLink_of_none h, announced, h, Option.map_none, Option.toList_none, List.append_nil,
      Option.some.injEq, eq_comm]
    simp [hfits]
  | some ifname =>
    rw [addLink_of_some h, linkFits_iff h, announced, h, Option.map_some, Option.toList_some,
      Option.ite_none_right_eq_some, linkStores_inside, Option.some.injEq, eq_comm (a := t)]
    simp [and_assoc]

theorem length_announced (m : Memory × Nat) :
    (announced m).toList.length = if (linkName m.1 m.2).isSome then 1 else 0 := by
  rw [announced]
  cases linkName m.1 m.2 <;> rfl

theorem foldlM_addLink (messages : List (Memory × Nat)) (interfaces t : List Interface)
    (hlen : interfaces.length ≤ maxInterfaces) :
    messages.foldlM (fun s m => addLink m.1 m.2 s) interfaces = some t ↔
      (interfaces.length + messages.countP (fun m => (linkName m.1 m.2).isSome) ≤ maxInterfaces ∧
        ∀ m ∈ messages, LinkFits m) ∧ t = interfaces ++ messages.filterMap announced := by
  induction messages generalizing interfaces with
  | nil =>
    rw [List.foldlM_nil, List.filterMap_nil, List.append_nil, List.countP_nil, eq_comm (a := t)]
    simp [hlen]
  | cons m messages ih =>
    have hannounced : (m :: messages).filterMap announced =
        (announced m).toList ++ messages.filterMap announced := by
      rw [List.filterMap_eq_flatMap_toList, List.flatMap_cons, ← List.filterMap_eq_flatMap_toList]
    have hnew := length_announced m
    rw [List.foldlM_cons, Option.bind_eq_bind, Option.bind_eq_some_iff, hannounced, List.countP_cons,
      List.forall_mem_cons]
    constructor
    · rintro ⟨u, hu, ht⟩
      obtain ⟨hroom, hfits, rfl⟩ := (addLink_eq_some_iff m interfaces u).mp hu
      have hlen' : (interfaces ++ (announced m).toList).length ≤ maxInterfaces := by
        rw [List.length_append, hnew]
        split
        · exact hroom ‹_›
        · exact hlen
      obtain ⟨⟨hcount, hall⟩, rfl⟩ := (ih _ hlen').mp ht
      rw [List.length_append, hnew] at hcount
      refine ⟨⟨by omega, hfits, hall⟩, List.append_assoc _ _ _⟩
    · rintro ⟨⟨hcount, hfits, hall⟩, rfl⟩
      have hlen' : (interfaces ++ (announced m).toList).length +
          messages.countP (fun m => (linkName m.1 m.2).isSome) ≤ maxInterfaces := by
        rw [List.length_append, hnew]
        omega
      refine ⟨interfaces ++ (announced m).toList, ?_, ?_⟩
      · refine (addLink_eq_some_iff m interfaces _).mpr ⟨fun hsome => ?_, hfits, rfl⟩
        rw [if_pos hsome] at hcount
        omega
      · rw [ih _ (by omega)]
        exact ⟨⟨hlen', hall⟩, (List.append_assoc _ _ _).symm⟩

theorem foldlM_addLink_nil (messages : List (Memory × Nat)) (t : List Interface) :
    messages.foldlM (fun s m => addLink m.1 m.2 s) [] = some t ↔
      Fits messages ∧ t = messages.filterMap announced := by
  rw [foldlM_addLink _ _ _ (Nat.zero_le _), List.length_nil, Nat.zero_add, List.nil_append]
  exact and_congr_left' ⟨fun h => ⟨h.1, h.2⟩, fun h => ⟨h.count, h.link⟩⟩

def withAddress (m : Memory × Nat) (interface : Interface) : Interface :=
  if nlmsgType m.1 m.2 = rtmNewaddr ∧ interface.index = ifaIndex m.1 m.2 then
    match addressTb m.1 m.2 ifaAddress with
    | none => interface
    | some rta =>
      if interface.ipv4Addrs.length < 10 then
        { interface with ipv4Addrs := interface.ipv4Addrs ++ [inetNtop m.1 (rtaData rta)] }
      else interface
  else interface

theorem length_decimal_le : ∀ n < 256, (decimal n).length ≤ 3 := by
  decide +kernel

theorem length_inetNtop_lt (mem : Memory) (src : Nat) : (inetNtop mem src).length < inetAddrstrlen := by
  have hdigits : ∀ i, (decimal (mem i).toNat).length ≤ 3 := fun i => length_decimal_le _ (mem i).isLt
  have hdot : (ascii ".").length = 1 := by decide
  have h0 := hdigits src
  have h1 := hdigits (src + 1)
  have h2 := hdigits (src + 2)
  have h3 := hdigits (src + 3)
  simp only [inetNtop, List.length_append, hdot, inetAddrstrlen]
  omega

theorem addIp_eq {m : Memory × Nat} (h : nlmsgType m.1 m.2 = rtmNewaddr) {element : Nat}
    (helement : element < maxInterfaces) (interface : Interface) :
    addIp m.1 m.2 element interface = some (withAddress m interface) := by
  rw [addIp, withAddress, h]
  by_cases hindex : interface.index = ifaIndex m.1 m.2
  · rw [if_pos hindex, if_pos ⟨rfl, hindex⟩]
    cases addressTb m.1 m.2 ifaAddress with
    | none => rfl
    | some rta =>
      by_cases hroom : interface.ipv4Addrs.length < 10
      · have hip := length_inetNtop_lt m.1 (rtaData rta)
        have haddr : (⟨element, .ipv4Addr interface.ipv4Addrs.length,
            (inetNtop m.1 (rtaData rta)).length + 1⟩ : Store).Inside := by
          refine ⟨helement, ?_⟩
          rw [Field.size, if_pos hroom]
          exact hip
        simp only [if_pos hroom]
        rw [if_pos ⟨haddr, helement, le_rfl⟩]
      · simp only [if_neg hroom]
  · rw [if_neg hindex, if_neg fun hboth => hindex hboth.2]

theorem addIps_eq {m : Memory × Nat} (h : nlmsgType m.1 m.2 = rtmNewaddr) (interfaces : List Interface)
    (element : Nat) (helement : element + interfaces.length ≤ maxInterfaces) :
    addIps m.1 m.2 element interfaces = some (interfaces.map (withAddress m)) := by
  induction interfaces generalizing element with
  | nil => rfl
  | cons interface rest ih =>
    rw [List.length_cons] at helement
    rw [addIps, addIp_eq h (by omega), ih (element + 1) (by omega)]
    rfl

theorem addAddress_eq (m : Memory × Nat) {interfaces : List Interface}
    (hlen : interfaces.length ≤ maxInterfaces) :
    addAddress m.1 m.2 interfaces = some (interfaces.map (withAddress m)) := by
  rw [addAddress]
  split
  · exact addIps_eq ‹_› interfaces 0 (by omega)
  · rename_i htype
    have hsame : ∀ interface ∈ interfaces, withAddress m interface = interface := fun interface _ => by
      rw [withAddress, if_neg fun hboth => htype hboth.1]
    rw [List.map_congr_left hsame, List.map_id']

theorem foldlM_addAddress (messages : List (Memory × Nat)) {interfaces : List Interface}
    (hlen : interfaces.length ≤ maxInterfaces) :
    messages.foldlM (fun s m => addAddress m.1 m.2 s) interfaces =
      some (interfaces.map fun interface => messages.foldl (fun e m => withAddress m e) interface) := by
  induction messages generalizing interfaces with
  | nil => simp
  | cons m messages ih =>
    rw [List.foldlM_cons, addAddress_eq m hlen, Option.bind_eq_bind, Option.bind_some,
      ih (by rw [List.length_map]; exact hlen), List.map_map]
    rfl

theorem length_filterMap_announced (messages : List (Memory × Nat)) :
    (messages.filterMap announced).length = messages.countP fun m => (linkName m.1 m.2).isSome := by
  rw [List.length_filterMap_eq_countP]
  refine List.countP_congr fun m _ => ?_
  rw [announced, Option.isSome_map]

theorem Fits.length_le {messages : List (Memory × Nat)} (h : Fits messages) :
    (messages.filterMap announced).length ≤ maxInterfaces := by
  rw [length_filterMap_announced]
  exact h.count

theorem run_of_fits {buffer : Memory} {recvs : List (Option (List Byte))}
    (h : Fits (reply buffer recvs).2) (buffer' : Memory) :
    run buffer buffer' recvs =
      if (reply buffer recvs).1 = .done then
        some (if (reply buffer' (unread buffer recvs)).1 = .waiting then .waiting else .done,
          ((reply buffer recvs).2.filterMap announced).map fun interface =>
            (reply buffer' (unread buffer recvs)).2.foldl (fun e m => withAddress m e) interface)
      else some ((reply buffer recvs).1, (reply buffer recvs).2.filterMap announced) := by
  have hlinks := (foldlM_addLink_nil (reply buffer recvs).2 _).mpr ⟨h, rfl⟩
  rw [run, getInterfaces, dump_eq, hlinks, Option.map_some]
  simp only [Option.bind_eq_bind, Option.bind_some]
  split
  · rw [getIpAddresses, dump_eq, foldlM_addAddress _ h.length_le]
    rfl
  · rfl

/-- The program stores nothing outside of its table just if the links of the first reply fit. -/
theorem run_isSome_iff (buffer buffer' : Memory) (recvs : List (Option (List Byte))) :
    (run buffer buffer' recvs).isSome ↔ Fits (reply buffer recvs).2 := by
  constructor
  · intro h
    cases hfold : (reply buffer recvs).2.foldlM (fun s m => addLink m.1 m.2 s) [] with
    | none =>
      rw [run, getInterfaces, dump_eq, hfold] at h
      cases h
    | some t => exact ((foldlM_addLink_nil _ t).mp hfold).1
  · intro h
    rw [run_of_fits h]
    split <;> rfl

def infiniband : List (List Byte) :=
  [rtattrBytes 3 (ascii "ib0" ++ [0]), rtattrBytes 1 (List.replicate 20 0xfe)]

def infinibandLink : List Byte :=
  nlmsgBytes rtmNewlink 2 1 0 (List.replicate 16 0 ++ infiniband.flatten)

def infinibandDone : List Byte := nlmsgBytes nlmsgDone 2 1 0 (List.replicate 4 0)

/-- The messages and attributes are whole, and the address is stored over the end of its field. -/
theorem run_infiniband :
    Laid rtattr infiniband infiniband.flatten ∧
      Laid nlmsghdr [infinibandLink, infinibandDone] (infinibandLink ++ infinibandDone) ∧
      run (fun _ => 0) (fun _ => 0) [some (infinibandLink ++ infinibandDone)] = none := by
  refine ⟨?_, ?_, by decide +kernel⟩
  · refine .aligned (isRecord_rtattrBytes (by decide)) (by decide +kernel) ?_
    exact .last (isRecord_rtattrBytes (by decide))
  · refine .aligned (isRecord_nlmsgBytes (by decide +kernel)) (by decide +kernel) ?_
    exact .last (isRecord_nlmsgBytes (by decide))

end RoblSampleCodes.InterfaceTable
