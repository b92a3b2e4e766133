import Mathlib.Tactic

/-!
# The character generator

The contents of `charROM.v`: for each 7-bit character code eight columns of
eight pixels, the leftmost column in the most significant byte.
-/
namespace FpgaTest.CharRom

def mem : List (BitVec 64) :=
  [
    0x0000000000000000,0x0000000000000000,0x0000000000000000,0x0000000000000000,
    0x0000000000000000,0x0000000000000000,0x0000000000000000,0x0000000000000000,
    0x0000000000000000,0x0000000000000000,0x0000000000000000,0x0000000000000000,
    0x0000000000000000,0x0000000000000000,0x0000000000000000,0x0000000000000000,
    0x0000000000000000,0x0000000000000000,0x0000000000000000,0x0000000000000000,
    0x0000000000000000,0x0000000000000000,0x0000000000000000,0x0000000000000000,
    0x0000000000000000,0x0000000000000000,0x0000000000000000,0x0000000000000000,
    0x0000000000000000,0x0000000000000000,0x0000000000000000,0x0000000000000000,
    0x0000000000000000,0x0000005f00000000,0x0000030003000000,0x643c26643c262400,
    0x2649497f49493200,0x4225120824522100,0x20504e5522582800,0x0000000300000000,
    0x00001c2241000000,0x00000041221c0000,0x0015150e0e151500,0x0008083e08080000,
    0x0000005030000000,0x0008080808080000,0x0000004000000000,0x4020100804020100,
    0x003e4141413e0000,0x0000417f40000000,0x00426151496e0000,0x0022414949360000,
    0x001814127f100000,0x0027494949710000,0x003c4a4948700000,0x004321110d030000,
    0x0036494949360000,0x00060949291e0000,0x0000001200000000,0x0000005230000000,
    0x0000081414220000,0x0014141414141400,0x0000221414080000,0x0002015905020000,
    0x3e415d554d512e00,0x407c4a094a7c4000,0x417f494949493600,0x1c22414141412200,
    0x417f414141221c00,0x417f49495d416300,0x417f49091d010300,0x1c224149493a0800,
    0x417f0808087f4100,0x0041417f41410000,0x304041413f010100,0x417f080c12614100,
    0x417f414040406000,0x417f420c427f4100,0x417f420c117f0100,0x1c22414141221c00,
    0x417f490909090600,0x0c12212161524c00,0x417f090919694600,0x6649494949493300,
    0x0301417f41010300,0x013f4140413f0100,0x010f3140310f0100,0x011f6114611f0100,
    0x4141360836414100,0x0103447844030100,0x4361514945436100,0x00007f4141000000,
    0x0102040810204000,0x000041417f000000,0x0004020101020400,0x0040404040404000,
    0x0001020000000000,0x00344a4a4a3c4000,0x00413f4848483000,0x003c424242240000,
    0x00304848493f4000,0x003c4a4a4a2c0000,0x0000487e49090000,0x00264949493f0100,
    0x417f480444784000,0x0000447d40000000,0x000040443d000000,0x417f101824424200,
    0x0040417f40400000,0x427e027c027e4000,0x427e4402427c4000,0x003c4242423c0000,
    0x00417f4909090600,0x00060909497f4100,0x00427e4402020400,0x00644a4a4a360000,
    0x00043f4444200000,0x00023e4040227e40,0x020e3240320e0200,0x021e6218621e0200,
    0x4262140814624200,0x0143453805030100,0x004662524a466200,0x0000083641000000,
    0x0000007f00000000,0x0000004136080000,0x0018080810101800,0xaa55aa55aa55aa55
  ]

def glyph (addr : BitVec 7) : BitVec 64 := mem.getD addr.toNat 0

/-- Byte `k` of a glyph, `k` from eight down to one: bits `8*k-1` to `8*k-8`. -/
def column (bitMap : BitVec 64) (k : ℕ) : BitVec 8 := bitMap.extractLsb' (8*k-8) 8

end FpgaTest.CharRom
