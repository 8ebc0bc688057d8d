import RoblSampleCodes.InterfaceTable

namespace RoblSampleCodes.InterfaceTableDump

open ByteMemory AlignedRecords Rtnetlink InterfaceTable

def attributes (area : List Byte) : List (List Byte) := contents rtattr (ofList area) 0 area.length

def attributeOf (type : Nat) (area : List Byte) : Option (List Byte) :=
  ((attributes area).filter (fun r => rtaType (ofList r) 0 = type)).getLast?.map (List.drop 4)

def typeOf (m : List Byte) : BitVec 16 := nlmsgType (ofList m) 0

def linkOf (m : List Byte) : Option Interface :=
  if typeOf m = rtmNewlink then
    (attributeOf iflaIfname (m.drop 32)).map fun name =>
      { index := ifiIndex (ofList m) 0
        name := name.takeWhile (· ≠ 0)
        flags := ifiFlags (ofList m) 0
        hwAddr := (attributeOf iflaAddress (m.drop 32)).getD []
        ipv4Addrs := [] }
  else none

def addressOf (m : List Byte) : Option (BitVec 32 × List Byte) :=
  if typeOf m = rtmNewaddr then
    (attributeOf ifaAddress (m.drop 24)).map fun value =>
      (ifaIndex (ofList m) 0, inetNtop (ofList value) 0)
  else none

def table (links addresses : List (List Byte)) : List Interface :=
  (links.filterMap linkOf).map fun e =>
    { e with ipv4Addrs :=
        (((addresses.filterMap addressOf).filter (fun a => a.1 = e.index)).map Prod.snd).take 10 }

/-- What the table has room for. Names end within their attribute. -/
structure WithinBounds (links addresses : List (List Byte)) : Prop where
  count : (links.filterMap linkOf).length ≤ maxInterfaces
  name : ∀ m ∈ links, typeOf m = rtmNewlink → ∀ name, attributeOf iflaIfname (m.drop 32) = some name →
    0 ∈ name.take ifNameSize
  hwAddr : ∀ m ∈ links, typeOf m = rtmNewlink → ∀ value,
    attributeOf iflaAddress (m.drop 32) = some value → value.length ≤ 8
  address : ∀ m ∈ addresses, typeOf m = rtmNewaddr → ∀ value,
    attributeOf ifaAddress (m.drop 24) = some value → 4 ≤ value.length

/-- The messages, cut into datagrams of whole messages that fit the buffer. -/
def Cut (ms datagrams : List (List Byte)) : Prop :=
  ∃ chunks : List (List (List Byte)), chunks.flatten = ms ∧ List.Forall₂ (Laid nlmsghdr) chunks datagrams ∧
    ∀ d ∈ datagrams, d.length ≤ bufferSize

/-- The datagrams of a reply: messages, of which none is an error, and the end of the dump. What
comes after that comes in its datagram. -/
structure IsReply (before datagrams : List (List Byte)) : Prop where
  ordinary : ∀ m ∈ before, typeOf m ≠ nlmsgDone ∧ typeOf m ≠ nlmsgError
  cut : ∃ chunks mid done after,
    List.Forall₂ (Laid nlmsghdr) (chunks ++ [mid ++ done :: after]) datagrams ∧
      typeOf done = nlmsgDone ∧ before = chunks.flatten ++ mid
  size : ∀ d ∈ datagrams, d.length ≤ bufferSize

section Record

variable {mem : Memory} {p : Nat}

theorem nlmsgType_eq (h : nlmsghdr.hdr ≤ nlmsgLen mem p) :
    nlmsgType mem p = typeOf (record nlmsghdr mem p) := by
  have hlen : 16 ≤ nlmsghdr.len mem p := h
  rw [typeOf, nlmsgType, nlmsgType, record, word16_ofList_slice (by omega), Nat.zero_add]

theorem contents_drop (k : Nat) :
    contents rtattr mem (p + k) (nlmsgLen mem p - k) = attributes ((record nlmsghdr mem p).drop k) := by
  rw [attributes, record, drop_slice, length_slice]
  by_cases hk : k ≤ nlmsgLen mem p
  · rw [nlmsgLen] at *
    rw [Nat.cast_sub hk]
    apply contents_of_agree
    intro l hl
    rw [Nat.zero_add, ofList_slice (by omega)]
  · have hleft : ¬ Ok rtattr mem (p + k) (nlmsgLen mem p - k) := fun hok => by
      have hpos := hok.pos
      omega
    rw [contents_of_not_ok hleft, contents_of_not_ok]
    intro hok
    have hpos := hok.pos
    rw [nlmsgLen] at hk
    omega

theorem rtaType_eq {rta : Nat} (h : rtattr.hdr ≤ rtattr.len mem rta) :
    rtaType mem rta = rtaType (ofList (record rtattr mem rta)) 0 := by
  have hlen : 4 ≤ rtattr.len mem rta := h
  rw [rtaType, rtaType, record, word16_ofList_slice (by omega), Nat.zero_add]

/-- The place that `parse_rtattr` keeps for a type is that of the last attribute of it. -/
theorem map_parseRtattr (mem : Memory) (p k : Nat) {max t : Nat} (ht : t ≤ max) :
    (parseRtattr mem max (p + k) (nlmsgLen mem p - k) t).map
      (fun rta => slice mem (rtaData rta) (rtaPayload mem rta)) =
      attributeOf t ((record nlmsghdr mem p).drop k) := by
  rw [parseRtattr_eq ht, attributeOf, ← contents_drop, contents, List.filter_map]
  have hfilter : (records rtattr mem (p + k) (nlmsgLen mem p - k)).filter
      ((fun r => decide (rtaType (ofList r) 0 = t)) ∘ record rtattr mem) =
      (records rtattr mem (p + k) (nlmsgLen mem p - k)).filter (fun rta => rtaType mem rta = t) := by
    apply List.filter_congr
    intro rta hrta
    rw [Function.comp_apply, rtaType_eq (hdr_le_of_mem hrta)]
  rw [hfilter, List.getLast?_map, Option.map_map]
  refine congrArg (fun f => Option.map f _) ?_
  funext rta
  rw [Function.comp_apply, record, drop_slice, rtaData, rtaPayload]

theorem attributeOf_nil (type : Nat) : attributeOf type [] = none := by
  rw [attributeOf, attributes, List.length_nil, Nat.cast_zero, contents_zero]
  rfl

theorem lt_nlmsgLen_of_attributeOf {k t : Nat} {value : List Byte}
    (h : attributeOf t ((record nlmsghdr mem p).drop k) = some value) : k < nlmsgLen mem p := by
  by_contra hle
  have hnil : (record nlmsghdr mem p).drop k = [] := by
    rw [List.drop_eq_nil_iff, record, length_slice]
    exact not_lt.mp hle
  rw [hnil, attributeOf_nil] at h
  cases h

theorem word32_record {k : Nat} (h : k + 4 ≤ nlmsgLen mem p) :
    word32 (ofList (record nlmsghdr mem p)) k = word32 mem (p + k) := by
  rw [record]
  exact word32_ofList_slice h

theorem map_linkTb (mem : Memory) (p : Nat) {t : Nat} (ht : t ≤ iflaMax) :
    (linkTb mem p t).map (fun rta => slice mem (rtaData rta) (rtaPayload mem rta)) =
      attributeOf t ((record nlmsghdr mem p).drop 32) := map_parseRtattr mem p 32 ht

theorem map_addressTb (mem : Memory) (p : Nat) {t : Nat} (ht : t ≤ ifaMax) :
    (addressTb mem p t).map (fun rta => slice mem (rtaData rta) (rtaPayload mem rta)) =
      attributeOf t ((record nlmsghdr mem p).drop 24) := map_parseRtattr mem p 24 ht

theorem linkHwAddr_eq :
    linkHwAddr mem p = (attributeOf iflaAddress ((record nlmsghdr mem p).drop 32)).getD [] := by
  rw [← map_linkTb mem p (by decide : iflaAddress ≤ iflaMax), linkHwAddr]
  cases linkTb mem p iflaAddress <;> rfl

theorem announced_eq (hhdr : nlmsghdr.hdr ≤ nlmsgLen mem p)
    (hname : typeOf (record nlmsghdr mem p) = rtmNewlink → ∀ name,
      attributeOf iflaIfname ((record nlmsghdr mem p).drop 32) = some name → 0 ∈ name.take ifNameSize) :
    announced (mem, p) = linkOf (record nlmsghdr mem p) := by
  have htype := nlmsgType_eq hhdr
  rw [announced, linkName, linkOf, htype]
  split
  · rename_i hlink
    have hattribute := map_linkTb mem p (by decide : iflaIfname ≤ iflaMax)
    cases htb : linkTb mem p iflaIfname with
    | none =>
      rw [htb, Option.map_none] at hattribute
      rw [← hattribute, Option.map_none, Option.map_none]
    | some rta =>
      rw [htb, Option.map_some] at hattribute
      have hlen := lt_nlmsgLen_of_attributeOf hattribute.symm
      have hends := hname hlink _ hattribute.symm
      rw [← hattribute, Option.map_some, Option.map_some]
      simp only [linkInterface, ifiIndex, ifiFlags, nlmsgData]
      rw [cString_eq hends, linkHwAddr_eq, word32_record (by omega), word32_record (by omega)]
  · rfl

theorem linkFits_of_bounds (hhdr : nlmsghdr.hdr ≤ nlmsgLen mem p)
    (hname : typeOf (record nlmsghdr mem p) = rtmNewlink → ∀ name,
      attributeOf iflaIfname ((record nlmsghdr mem p).drop 32) = some name → 0 ∈ name.take ifNameSize)
    (haddr : typeOf (record nlmsghdr mem p) = rtmNewlink → ∀ value,
      attributeOf iflaAddress ((record nlmsghdr mem p).drop 32) = some value → value.length ≤ 8) :
    LinkFits (mem, p) := by
  intro ifname hifname
  rw [linkName, Option.ite_none_right_eq_some, nlmsgType_eq hhdr] at hifname
  obtain ⟨htype, htb⟩ := hifname
  constructor
  · have hattribute := map_linkTb mem p (by decide : iflaIfname ≤ iflaMax)
    rw [htb, Option.map_some] at hattribute
    have hends := hname htype _ hattribute.symm
    rw [take_slice] at hends
    refine length_cString_lt (List.mem_of_mem_take (i := min ifNameSize (rtaPayload mem ifname)) ?_)
    rw [take_slice, Nat.min_eq_left (Nat.min_le_left _ _)]
    exact hends
  · rw [linkHwAddr_eq]
    cases hvalue : attributeOf iflaAddress ((record nlmsghdr mem p).drop 32) with
    | none => exact Nat.zero_le _
    | some value => exact haddr htype value hvalue

def withAddressOf (interface : Interface) (m : List Byte) : Interface :=
  match addressOf m with
  | none => interface
  | some a =>
    if interface.index = a.1 ∧ interface.ipv4Addrs.length < 10 then
      { interface with ipv4Addrs := interface.ipv4Addrs ++ [a.2] }
    else interface

theorem inetNtop_slice {src n : Nat} (h : 4 ≤ n) :
    inetNtop (ofList (slice mem src n)) 0 = inetNtop mem src := by
  rw [inetNtop, inetNtop, ofList_slice (by omega), ofList_slice (by omega), ofList_slice (by omega),
    ofList_slice (by omega)]
  rfl

theorem withAddress_eq (hhdr : nlmsghdr.hdr ≤ nlmsgLen mem p)
    (hvalue : typeOf (record nlmsghdr mem p) = rtmNewaddr → ∀ value,
      attributeOf ifaAddress ((record nlmsghdr mem p).drop 24) = some value → 4 ≤ value.length)
    (interface : Interface) :
    withAddress (mem, p) interface = withAddressOf interface (record nlmsghdr mem p) := by
  rw [withAddress, withAddressOf, addressOf, nlmsgType_eq hhdr]
  by_cases htype : typeOf (record nlmsghdr mem p) = rtmNewaddr
  · have hattribute := map_addressTb mem p (by decide : ifaAddress ≤ ifaMax)
    rw [if_pos htype, ← hattribute]
    cases htb : addressTb mem p ifaAddress with
    | none => simp
    | some rta =>
      rw [htb, Option.map_some] at hattribute
      have hlen := lt_nlmsgLen_of_attributeOf hattribute.symm
      have hfour := hvalue htype _ hattribute.symm
      rw [length_slice] at hfour
      have hindex : ifaIndex (ofList (record nlmsghdr mem p)) 0 = ifaIndex mem p := word32_record (by
        simp only [nlmsgData]
        omega)
      simp only [Option.map_some, hindex, inetNtop_slice hfour, htype, true_and]
      by_cases heq : interface.index = ifaIndex mem p
      · simp only [heq, if_true, true_and]
      · simp only [heq, if_false, false_and]
  · rw [if_neg htype, if_neg fun hboth => htype hboth.1]

end Record

theorem foldl_withAddressOf (addresses : List (List Byte)) (interface : Interface)
    (h : interface.ipv4Addrs.length ≤ 10) : addresses.foldl withAddressOf interface =
      { interface with ipv4Addrs := (interface.ipv4Addrs ++ ((addresses.filterMap addressOf).filter
          (fun a => a.1 = interface.index)).map Prod.snd).take 10 } := by
  induction addresses generalizing interface with
  | nil => simp [List.take_of_length_le h]
  | cons m addresses ih =>
    rw [List.foldl_cons, withAddressOf]
    cases haddress : addressOf m with
    | none =>
      simp only
      rw [ih _ h, List.filterMap_cons_none haddress]
    | some a =>
      simp only
      rw [List.filterMap_cons_some haddress]
      by_cases hindex : a.1 = interface.index
      · rw [List.filter_cons_of_pos (by simp [hindex])]
        by_cases hroom : interface.ipv4Addrs.length < 10
        · rw [if_pos ⟨hindex.symm, hroom⟩, ih]
          · simp
          · simp
            omega
        · have hfull : 10 ≤ interface.ipv4Addrs.length := not_lt.mp hroom
          rw [if_neg fun hboth => hroom hboth.2, ih _ h, List.take_append_of_le_length hfull,
            List.take_append_of_le_length hfull]
      · rw [List.filter_cons_of_neg (by simp [hindex]), if_neg fun hboth => hindex hboth.1.symm, ih _ h]

section Reply

variable {mem buffer : Memory} {datagram : List Byte} {ms before : List (List Byte)}

theorem scan_append {places : List Nat}
    (h : ∀ p ∈ places, nlmsgType mem p ≠ nlmsgDone ∧ nlmsgType mem p ≠ nlmsgError) (later : List Nat) :
    scan mem (places ++ later) = ((scan mem later).1, places ++ (scan mem later).2) := by
  induction places with
  | nil => rfl
  | cons p places ih =>
    obtain ⟨hdone, herror⟩ := h p List.mem_cons_self
    rw [List.cons_append, scan, if_neg hdone, if_neg herror,
      ih fun q hq => h q (List.mem_cons_of_mem p hq)]
    rfl

theorem holds_recvmsg (h : datagram.length ≤ bufferSize) : Holds (recvmsg buffer datagram) 0 datagram := by
  have hfilled := holds_filled bufferSize buffer datagram
  rwa [List.take_of_length_le h] at hfilled

theorem map_messages (buffer : Memory) (h : datagram.length ≤ bufferSize)
    (hlaid : Laid nlmsghdr ms datagram) :
    (messages buffer datagram).map (record nlmsghdr (recvmsg buffer datagram)) = ms := by
  rw [messages, Nat.min_eq_left h]
  exact contents_of_laid hlaid (holds_recvmsg h)

theorem hdr_le_of_mem_messages {p : Nat} (h : p ∈ messages buffer datagram) :
    nlmsghdr.hdr ≤ nlmsgLen (recvmsg buffer datagram) p := hdr_le_of_mem h

theorem ordinary_of_map {places : List Nat} (hmem : ∀ p ∈ places, p ∈ messages buffer datagram)
    (h : ∀ m ∈ places.map (record nlmsghdr (recvmsg buffer datagram)),
      typeOf m ≠ nlmsgDone ∧ typeOf m ≠ nlmsgError) :
    ∀ p ∈ places, nlmsgType (recvmsg buffer datagram) p ≠ nlmsgDone ∧
      nlmsgType (recvmsg buffer datagram) p ≠ nlmsgError := by
  intro p hp
  rw [nlmsgType_eq (hdr_le_of_mem_messages (hmem p hp))]
  exact h _ (List.mem_map_of_mem hp)

theorem scan_of_ordinary (h : ∀ m ∈ (messages buffer datagram).map
      (record nlmsghdr (recvmsg buffer datagram)), typeOf m ≠ nlmsgDone ∧ typeOf m ≠ nlmsgError) :
    scan (recvmsg buffer datagram) (messages buffer datagram) =
      (.waiting, messages buffer datagram) := by
  have hscan := scan_append (ordinary_of_map (fun _ hp => hp) h) []
  rwa [scan, List.append_nil] at hscan

/-- Of the datagram with the end, what comes before that is handled. -/
theorem scan_of_done {done : List Byte} {after : List (List Byte)}
    (hmap : (messages buffer datagram).map (record nlmsghdr (recvmsg buffer datagram)) =
      before ++ done :: after)
    (h : ∀ m ∈ before, typeOf m ≠ nlmsgDone ∧ typeOf m ≠ nlmsgError) (hdone : typeOf done = nlmsgDone) :
    ∃ places, scan (recvmsg buffer datagram) (messages buffer datagram) = (.done, places) ∧
      places.map (record nlmsghdr (recvmsg buffer datagram)) = before := by
  obtain ⟨places, later, hplaces, hbefore, hlater⟩ := List.map_eq_append_iff.mp hmap
  obtain ⟨p, later, rfl, hp, -⟩ := List.map_eq_cons_iff.mp hlater
  have hmem : ∀ q ∈ places, q ∈ messages buffer datagram := fun q hq => by
    rw [hplaces]
    exact List.mem_append_left _ hq
  have hend : p ∈ messages buffer datagram := by
    rw [hplaces]
    exact List.mem_append_right _ List.mem_cons_self
  have htype : nlmsgType (recvmsg buffer datagram) p = nlmsgDone := by
    rw [nlmsgType_eq (hdr_le_of_mem_messages hend), hp, hdone]
  rw [← hbefore] at h
  refine ⟨places, ?_, hbefore⟩
  rw [hplaces, scan_append (ordinary_of_map hmem h), scan, if_pos htype, List.append_nil]

def bytesOf (m : Memory × Nat) : List Byte := record nlmsghdr m.1 m.2

theorem map_bytesOf (mem : Memory) (places : List Nat) :
    (places.map fun p => (mem, p)).map bytesOf = places.map (record nlmsghdr mem) := by
  rw [List.map_map]
  rfl

theorem mem_of_mem_scan {places : List Nat} {p : Nat} (h : p ∈ (scan mem places).2) : p ∈ places := by
  induction places with
  | nil => cases h
  | cons q places ih =>
    rw [scan] at h
    split at h
    · cases h
    · split at h
      · cases h
      · rcases List.mem_cons.mp h with rfl | h
        · exact List.mem_cons_self
        · exact List.mem_cons_of_mem q (ih h)

theorem hdr_le_of_mem_reply {recvs : List (Option (List Byte))} {m : Memory × Nat}
    (h : m ∈ (reply buffer recvs).2) : nlmsghdr.hdr ≤ nlmsgLen m.1 m.2 := by
  induction recvs generalizing buffer with
  | nil => cases h
  | cons recv rest ih =>
    cases recv with
    | none => cases h
    | some datagram =>
      rw [reply] at h
      simp only [List.mem_append, List.mem_map] at h
      rcases h with ⟨p, hp, rfl⟩ | h
      · exact hdr_le_of_mem_messages (mem_of_mem_scan hp)
      · split at h
        · exact ih h
        · cases h

theorem reply_cons {chunk : List (List Byte)} (buffer : Memory) (hlen : datagram.length ≤ bufferSize)
    (hlaid : Laid nlmsghdr chunk datagram)
    (h : ∀ m ∈ chunk, typeOf m ≠ nlmsgDone ∧ typeOf m ≠ nlmsgError) (recvs : List (Option (List Byte))) :
    (reply buffer (some datagram :: recvs)).1 = (reply (recvmsg buffer datagram) recvs).1 ∧
      (reply buffer (some datagram :: recvs)).2.map bytesOf =
        chunk ++ (reply (recvmsg buffer datagram) recvs).2.map bytesOf ∧
      unread buffer (some datagram :: recvs) = unread (recvmsg buffer datagram) recvs := by
  have hmap := map_messages buffer hlen hlaid
  have hscan : scan (recvmsg buffer datagram) (messages buffer datagram) =
      (.waiting, messages buffer datagram) := by
    apply scan_of_ordinary
    rwa [hmap]
  rw [reply, unread, hscan]
  refine ⟨rfl, ?_, rfl⟩
  simp only [List.map_append, map_bytesOf, hmap, if_true]

theorem reply_done {done : List Byte} {after : List (List Byte)} (hlen : datagram.length ≤ bufferSize)
    (hlaid : Laid nlmsghdr (before ++ done :: after) datagram) (hdone : typeOf done = nlmsgDone)
    (h : ∀ m ∈ before, typeOf m ≠ nlmsgDone ∧ typeOf m ≠ nlmsgError) (recvs : List (Option (List Byte))) :
    (reply buffer (some datagram :: recvs)).1 = .done ∧
      (reply buffer (some datagram :: recvs)).2.map bytesOf = before ∧
      unread buffer (some datagram :: recvs) = recvs := by
  obtain ⟨places, hscan, hbefore⟩ := scan_of_done (map_messages buffer hlen hlaid) h hdone
  rw [reply, unread, hscan]
  refine ⟨rfl, ?_, rfl⟩
  simp only [List.map_append, map_bytesOf, hbefore]
  exact List.append_nil before

/-- However a reply is cut, the messages up to its end are handled, and what comes after it is
left. -/
theorem reply_of_isReply {datagrams : List (List Byte)} (h : IsReply before datagrams) (buffer : Memory)
    (recvs : List (Option (List Byte))) :
    (reply buffer (datagrams.map some ++ recvs)).1 = .done ∧
      (reply buffer (datagrams.map some ++ recvs)).2.map bytesOf = before ∧
      unread buffer (datagrams.map some ++ recvs) = recvs := by
  obtain ⟨hordinary, ⟨chunks, mid, done, after, hlaid, hdone, rfl⟩, hsize⟩ := h
  induction chunks generalizing buffer datagrams with
  | nil =>
    rw [List.nil_append] at hlaid
    obtain ⟨datagram, rest, hdatagram, hrest, rfl⟩ := List.forall₂_cons_left_iff.mp hlaid
    obtain rfl := List.forall₂_nil_left_iff.mp hrest
    exact reply_done (hsize datagram List.mem_cons_self) hdatagram hdone hordinary recvs
  | cons chunk chunks ih =>
    rw [List.cons_append] at hlaid
    obtain ⟨datagram, rest, hdatagram, hrest, rfl⟩ := List.forall₂_cons_left_iff.mp hlaid
    rw [List.flatten_cons, List.append_assoc] at hordinary
    obtain ⟨hend, hmap, hunread⟩ := reply_cons buffer (hsize datagram List.mem_cons_self)
      hdatagram (fun m hm => hordinary m (List.mem_append_left _ hm)) (rest.map some ++ recvs)
    obtain ⟨hend', hmap', hunread'⟩ := ih (recvmsg buffer datagram)
      (fun d hd => hsize d (List.mem_cons_of_mem _ hd)) hrest
      (fun m hm => hordinary m (List.mem_append_right _ hm))
    rw [List.map_cons, List.cons_append, hend, hmap, hunread, hmap', List.flatten_cons, List.append_assoc]
    exact ⟨hend', rfl, hunread'⟩

end Reply

section Table

variable {links addresses : List (List Byte)} {messages : List (Memory × Nat)}

theorem filterMap_announced (hbounds : WithinBounds links addresses) (hmap : messages.map bytesOf = links)
    (hhdr : ∀ m ∈ messages, nlmsghdr.hdr ≤ nlmsgLen m.1 m.2) :
    messages.filterMap announced = links.filterMap linkOf := by
  subst hmap
  rw [List.filterMap_map]
  refine List.filterMap_congr fun m hm => ?_
  exact announced_eq (hhdr m hm) (hbounds.name _ (List.mem_map_of_mem hm))

theorem fits_of_bounds (hbounds : WithinBounds links addresses) (hmap : messages.map bytesOf = links)
    (hhdr : ∀ m ∈ messages, nlmsghdr.hdr ≤ nlmsgLen m.1 m.2) : Fits messages := by
  constructor
  · rw [← length_filterMap_announced, filterMap_announced hbounds hmap hhdr]
    exact hbounds.count
  · intro m hm
    have hlink : bytesOf m ∈ links := hmap ▸ List.mem_map_of_mem hm
    exact linkFits_of_bounds (hhdr m hm) (hbounds.name _ hlink) (hbounds.hwAddr _ hlink)

theorem foldl_withAddress (hbounds : WithinBounds links addresses)
    (hmap : messages.map bytesOf = addresses)
    (hhdr : ∀ m ∈ messages, nlmsghdr.hdr ≤ nlmsgLen m.1 m.2) (interface : Interface) :
    messages.foldl (fun e m => withAddress m e) interface = addresses.foldl withAddressOf interface := by
  subst hmap
  rw [List.foldl_map]
  refine List.foldl_ext _ _ _ fun e m hm => ?_
  exact withAddress_eq (hhdr m hm) (hbounds.address _ (List.mem_map_of_mem hm)) e

theorem ipv4Addrs_of_linkOf {m : List Byte} {e : Interface} (h : linkOf m = some e) :
    e.ipv4Addrs = [] := by
  rw [linkOf, Option.ite_none_right_eq_some, Option.map_eq_some_iff] at h
  obtain ⟨-, name, -, rfl⟩ := h
  rfl

theorem map_foldl_withAddressOf (links addresses : List (List Byte)) :
    (links.filterMap linkOf).map (fun e => addresses.foldl withAddressOf e) = table links addresses := by
  refine List.map_congr_left fun e he => ?_
  obtain ⟨m, -, hm⟩ := List.mem_filterMap.mp he
  have hnil := ipv4Addrs_of_linkOf hm
  rw [foldl_withAddressOf _ _ (by rw [hnil]; exact Nat.zero_le _), hnil, List.nil_append]

end Table

/-- The table that the program prints has the links and addresses of the two replies, however
they are cut into datagrams, whatever the buffers had before, whatever comes after the end of a
dump in its datagram and whatever comes after the second reply. -/
theorem run_eq_table {links addresses linkDatagrams addressDatagrams : List (List Byte)}
    (hlinks : IsReply links linkDatagrams) (haddresses : IsReply addresses addressDatagrams)
    (hbounds : WithinBounds links addresses) (buffer buffer' : Memory)
    (recvs : List (Option (List Byte))) :
    run buffer buffer' (linkDatagrams.map some ++ (addressDatagrams.map some ++ recvs)) =
      some (.done, table links addresses) := by
  obtain ⟨hdone, hmap, hunread⟩ := reply_of_isReply hlinks buffer (addressDatagrams.map some ++ recvs)
  obtain ⟨hdone', hmap', -⟩ := reply_of_isReply haddresses buffer' recvs
  have hfits := fits_of_bounds hbounds hmap fun m hm => hdr_le_of_mem_reply hm
  have hannounced := filterMap_announced hbounds hmap fun m hm => hdr_le_of_mem_reply hm
  have hfold := foldl_withAddress hbounds hmap' fun m hm => hdr_le_of_mem_reply hm
  rw [run_of_fits hfits, if_pos hdone, hunread, hdone', hannounced, ← map_foldl_withAddressOf]
  simp only [hfold]
  rfl

def loopbackLink : List Byte :=
  nlmsgBytes rtmNewlink 2 1 0 (bytes32 0x03040000 ++ bytes32 1 ++ bytes32 0x10049 ++ bytes32 0 ++
    rtattrBytes 3 (ascii "lo" ++ [0]) ++ [0] ++ rtattrBytes 1 (List.replicate 6 0))

def loopbackAddress : List Byte :=
  nlmsgBytes rtmNewaddr 2 2 0 (bytes32 0xfe800802 ++ bytes32 1 ++ rtattrBytes 1 [127, 0, 0, 1])

def endOfDump : List Byte := nlmsgBytes nlmsgDone 2 1 0 (List.replicate 4 0)

theorem withinBounds_loopback : WithinBounds [loopbackLink] [loopbackAddress] := by
  have hname : attributeOf iflaIfname (loopbackLink.drop 32) = some (ascii "lo" ++ [0]) := by
    decide +kernel
  have haddr : attributeOf iflaAddress (loopbackLink.drop 32) = some (List.replicate 6 0) := by
    decide +kernel
  have hvalue : attributeOf ifaAddress (loopbackAddress.drop 24) = some [127, 0, 0, 1] := by
    decide +kernel
  refine ⟨by decide +kernel, ?_, ?_, ?_⟩
  · simp only [List.forall_mem_singleton, hname, Option.some.injEq]
    rintro - name rfl
    decide
  · simp only [List.forall_mem_singleton, haddr, Option.some.injEq]
    rintro - value rfl
    decide
  · simp only [List.forall_mem_singleton, hvalue, Option.some.injEq]
    rintro - value rfl
    decide

theorem isRecord_loopbackLink : IsRecord nlmsghdr loopbackLink := isRecord_nlmsgBytes (by decide +kernel)

theorem isRecord_loopbackAddress : IsRecord nlmsghdr loopbackAddress :=
  isRecord_nlmsgBytes (by decide +kernel)

theorem isRecord_endOfDump : IsRecord nlmsghdr endOfDump := isRecord_nlmsgBytes (by decide)

/-- The link in two datagrams and the address in one. -/
theorem run_loopback :
    run (fun _ => 0xff) (fun _ => 0)
        [some loopbackLink, some endOfDump, some (loopbackAddress ++ endOfDump)] =
      some (.done, table [loopbackLink] [loopbackAddress]) ∧
    table [loopbackLink] [loopbackAddress] =
      [⟨1, ascii "lo", 0x10049, List.replicate 6 0, [ascii "127.0.0.1"]⟩] := by
  have hlinks : IsReply [loopbackLink] [loopbackLink, endOfDump] :=
    ⟨by decide +kernel, ⟨[[loopbackLink]], [], endOfDump, [],
      .cons (.last isRecord_loopbackLink) (.cons (.last isRecord_endOfDump) .nil), by decide +kernel, rfl⟩,
      by decide +kernel⟩
  have haddresses : IsReply [loopbackAddress] [loopbackAddress ++ endOfDump] :=
    ⟨by decide +kernel, ⟨[], [loopbackAddress], endOfDump, [],
      .cons (.aligned isRecord_loopbackAddress (by decide +kernel) (.last isRecord_endOfDump)) .nil,
      by decide +kernel, rfl⟩, by decide +kernel⟩
  exact ⟨run_eq_table hlinks haddresses withinBounds_loopback _ _ [], by decide +kernel⟩

theorem run_cut :
    Cut [loopbackLink, endOfDump, endOfDump] [loopbackLink, endOfDump ++ endOfDump] ∧
      Cut [loopbackLink, endOfDump, endOfDump] [loopbackLink, endOfDump, endOfDump] ∧
      run (fun _ => 0) (fun _ => 0)
          ([loopbackLink, endOfDump ++ endOfDump, loopbackAddress ++ endOfDump].map some) =
        some (.done, table [loopbackLink] [loopbackAddress]) ∧
      run (fun _ => 0) (fun _ => 0)
          ([loopbackLink, endOfDump, endOfDump, loopbackAddress ++ endOfDump].map some) =
        some (.done, table [loopbackLink] []) ∧
      table [loopbackLink] [loopbackAddress] ≠ table [loopbackLink] [] := by
  refine ⟨⟨[[loopbackLink], [endOfDump, endOfDump]], rfl, ?_, by decide +kernel⟩,
    ⟨[[loopbackLink], [endOfDump], [endOfDump]], rfl, ?_, by decide +kernel⟩, by decide +kernel,
    by decide +kernel, by decide +kernel⟩
  · exact .cons (.last isRecord_loopbackLink)
      (.cons (.aligned isRecord_endOfDump (by decide +kernel) (.last isRecord_endOfDump)) .nil)
  · exact .cons (.last isRecord_loopbackLink)
      (.cons (.last isRecord_endOfDump) (.cons (.last isRecord_endOfDump) .nil))

end RoblSampleCodes.InterfaceTableDump
