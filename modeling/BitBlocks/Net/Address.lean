import BitBlocks.Masternode.Masternode

/-!
# Network addresses (`netbase.cpp`, `protocol.h`)

An address is 16 bytes: an IPv6 address, or an IPv4 address behind the prefix that
maps it. Which of them can be reached over the internet, and which belong to one
network operator, is read off their first bytes.
-/

namespace BitBlocks

abbrev CNetAddr := List UInt8

inductive Network where
  | NET_UNROUTABLE
  | NET_IPV4
  | NET_IPV6
  | NET_TOR
deriving DecidableEq, Repr

/-- The place in the `enum`. -/
def Network.toByte : Network → UInt8
  | NET_UNROUTABLE => 0
  | NET_IPV4 => 1
  | NET_IPV6 => 2
  | NET_TOR => 3

namespace CNetAddr

def pchIPv4 : List UInt8 := [0, 0, 0, 0, 0, 0, 0, 0, 0, 0, 0xff, 0xff]
def pchOnionCat : List UInt8 := [0xFD, 0x87, 0xD8, 0x7E, 0xEB, 0x43]
def pchRFC6052 : List UInt8 := [0, 0x64, 0xFF, 0x9B, 0, 0, 0, 0, 0, 0, 0, 0]
def pchRFC4862 : List UInt8 := [0xFE, 0x80, 0, 0, 0, 0, 0, 0]
def pchRFC6145 : List UInt8 := [0, 0, 0, 0, 0, 0, 0, 0, 0xFF, 0xFF, 0, 0]
def pchLocal : List UInt8 := [0, 0, 0, 0, 0, 0, 0, 0, 0, 0, 0, 0, 0, 0, 0, 1]

variable (ip : CNetAddr)

/-- The bytes are numbered from the end. -/
def getByte (n : Nat) : UInt8 := ip.getD (15 - n) 0

/-- `memcmp` with the first bytes. -/
def startsWith (pch : List UInt8) : Bool := ip.take pch.length == pch

def isIPv4 : Bool := startsWith ip pchIPv4

def isTor : Bool := startsWith ip pchOnionCat

def isRFC1918 : Bool :=
  isIPv4 ip && (getByte ip 3 == 10 || (getByte ip 3 == 192 && getByte ip 2 == 168) ||
    (getByte ip 3 == 172 && (getByte ip 2 ≥ 16 && getByte ip 2 ≤ 31)))

def isRFC2544 : Bool :=
  isIPv4 ip && getByte ip 3 == 198 && (getByte ip 2 == 18 || getByte ip 2 == 19)

def isRFC3927 : Bool := isIPv4 ip && (getByte ip 3 == 169 && getByte ip 2 == 254)

def isRFC6598 : Bool := isIPv4 ip && getByte ip 3 == 100 && getByte ip 2 ≥ 64 && getByte ip 2 ≤ 127

def isRFC5737 : Bool :=
  isIPv4 ip && ((getByte ip 3 == 192 && getByte ip 2 == 0 && getByte ip 1 == 2) ||
    (getByte ip 3 == 198 && getByte ip 2 == 51 && getByte ip 1 == 100) ||
    (getByte ip 3 == 203 && getByte ip 2 == 0 && getByte ip 1 == 113))

def isRFC3849 : Bool :=
  getByte ip 15 == 0x20 && getByte ip 14 == 0x01 && getByte ip 13 == 0x0D && getByte ip 12 == 0xB8

def isRFC3964 : Bool := getByte ip 15 == 0x20 && getByte ip 14 == 0x02

def isRFC6052 : Bool := startsWith ip pchRFC6052

def isRFC4380 : Bool :=
  getByte ip 15 == 0x20 && getByte ip 14 == 0x01 && getByte ip 13 == 0 && getByte ip 12 == 0

def isRFC4862 : Bool := startsWith ip pchRFC4862

def isRFC4193 : Bool := getByte ip 15 &&& 0xFE == 0xFC

def isRFC6145 : Bool := startsWith ip pchRFC6145

def isRFC4843 : Bool := getByte ip 15 == 0x20 && getByte ip 14 == 0x01 && getByte ip 13 == 0x00 &&
    getByte ip 12 &&& 0xF0 == 0x10

def isLocal : Bool :=
  -- IPv4 loopback
  (isIPv4 ip && (getByte ip 3 == 127 || getByte ip 3 == 0)) ||
  -- IPv6 loopback (::1/128)
  startsWith ip pchLocal

def isValid : Bool :=
  -- 3-byte shifted addresses caused by garbage in the size field of an addr message
  if startsWith ip (pchIPv4.drop 3) then false
  -- unspecified IPv6 address (::/128)
  else if startsWith ip (List.replicate 16 0) then false
  -- documentation IPv6 address
  else if isRFC3849 ip then false
  else if isIPv4 ip then
    !(startsWith (ip.drop 12) (List.replicate 4 0xff)) &&
      !(startsWith (ip.drop 12) (List.replicate 4 0))
  else true

def isRoutable : Bool :=
  isValid ip && !(isRFC1918 ip || isRFC2544 ip || isRFC3927 ip || isRFC4862 ip || isRFC6598 ip ||
    isRFC5737 ip || (isRFC4193 ip && !isTor ip) || isRFC4843 ip || isLocal ip)

/-- The class, and the first `nBits` bits from a byte on: whole bytes, and the last one with the
bits below filled up. -/
def groupBytes (nClass : UInt8) (nStartByte nBits : Nat) : List UInt8 :=
  nClass :: (((List.range (nBits / 8)).map fun i => getByte ip (15 - (nStartByte + i))) ++
    if nBits % 8 > 0 then
      [getByte ip (15 - (nStartByte + nBits / 8)) ||| UInt8.ofNat (2 ^ (nBits % 8) - 1)]
    else [])

/-- `GetGroup`, the canonical identifier of an address' group. A local address is not routable
either. -/
def getGroup : List UInt8 :=
  -- all unroutable addresses belong to the same group
  if !isRoutable ip then groupBytes ip Network.NET_UNROUTABLE.toByte 0 0
  -- for IPv4 addresses, '1' + the 16 higher-order bits of the IP
  else if isIPv4 ip || isRFC6145 ip || isRFC6052 ip then groupBytes ip Network.NET_IPV4.toByte 12 16
  -- for 6to4 tunnelled addresses, use the encapsulated IPv4 address
  else if isRFC3964 ip then groupBytes ip Network.NET_IPV4.toByte 2 16
  -- for Teredo-tunnelled IPv6 addresses, use the encapsulated IPv4 address
  else if isRFC4380 ip then
    [Network.NET_IPV4.toByte, getByte ip 3 ^^^ 0xFF, getByte ip 2 ^^^ 0xFF]
  else if isTor ip then groupBytes ip Network.NET_TOR.toByte 6 4
  -- for he.net, use /36 groups
  else if getByte ip 15 == 0x20 && getByte ip 14 == 0x01 && getByte ip 13 == 0x04 &&
      getByte ip 12 == 0x70 then groupBytes ip Network.NET_IPV6.toByte 0 36
  -- for the rest of the IPv6 network, use /32 groups
  else groupBytes ip Network.NET_IPV6.toByte 0 32

end CNetAddr

/-- `CService::GetKey`. -/
def CService.getKey (s : CService) : List UInt8 :=
  s.ip ++ [UInt8.ofNat (s.port / 0x100), UInt8.ofNat s.port]

def NODE_NETWORK : Nat := 1

/-- An address with what is told about it. -/
structure CAddress extends CService where
  nServices : Nat := NODE_NETWORK
  /-- Disk and network only. -/
  nTime : Nat := 100000000
  /-- Memory only. -/
  nLastTry : Int := 0
deriving DecidableEq, Repr

end BitBlocks
