/-!
# The parts in stock

Many parts have the same rating: a value, the least and the greatest value that they may
have, and the unit of the value. The least and the greatest value are in ohms or farads.
So the ratings are listed once. Most have a tolerance, and those with one tolerance and
one unit stand on a line. Of a part there are its number and the numbers of its rating
and of its package, counted from zero, and of the first parts the price. They are
written in digits to the base 82, five for a part and two for a price.
-/

namespace Boardwright.Catalogue

/-- The ratings with a tolerance: a line has the tolerance in percent, the unit and the
values. -/
def tolerances : String := "1,KΩ,47,10,100,1.2,2,2.2,1.5,15,20,1,4.7,5.6,2.7,3.3,12,30,5.1,22,3,33,150,470,51,6.8,68,200,330,13,220,2.4,120,39,7.5,9.1,49.9,56,300,3.6,3.9,24,8.2,82,75,40.2,510,18,27,62,110,1.8,180,240,43,4.99,560,6.2,1.1,270,36,16,91,4.3,680,390,11,360,430,160,750,130,620,499
1,Ω,510,330,10,100,120,220,200,47,470,33,49.9,22,20,51,680,300,1,75,820,560,150,270,390,180,2,240,5.1,.1,750,68,15,27,360,430,56,620,910,110,130,160,24,91,1.2,1.8,5.6,18,39,.05,.056,.04,.01,.02,.025,49.9,1.5,2.7,3.3,3.9,6.8,8.2,12,.018,.043,.68,.035,.06
0,Ω,0
5,pF,15,100,220,12,20,22,47,10,330,30,150,1,27,8,7,6,680,200,2,56,5,3,82,120,560,300,75,51,240,43,16,270,100,200,11,390,25,36,13,22,33,18,62,39,220
5,uF,1,10
1,MΩ,1,10,2,1.2,5.1,1.5,2.2,4.7,3,1.8
5,nF,1,2.1999999999999997,2.2,4.7,1.5,10,3.3
5,KΩ,10,4.7,1,1.5,3,6.8,30,100,2.2,3.3,5.1,20,47,1.8,150,220,27,3.9,36,39,470,5.6,510,68,82,15,22,2,2.7,8.2,1.2,12,330,270,33,24,3.6,51,680,130,16,910,91,9.1,300,1.6,1.1,360,240,560,620,200,1.3,2.4,4.3,6.2,750,7.5,390,110,11,120,43,75,13,160,180,18,430,62,56,820
5,Ω,470,33,30,20,27,200,10,150,15,180,22,300,330,390,620,680,47,220,100,39,510,68,75,120,240,360,6.8,560,7.5,160,91,820,910,750,.3,16,1.2,110,13,130,11,9.1,1,.15,.11,.5,.22,3.3,2,430,270,43,4.3,2.4,.62,.25,.033,.43,.02,.075,.039,.022,3,12,2.2,51,24,36,33,56,82,.056,.47,3.9,2.7,1.8,5.6,5.1,4.7,3.6,.68,.2,.1,.33,.51,18,1.5,1.1,.82,1.3,62,8.2,1.6,6.2,.75,.56,.36,.24,.18,.27,.12,.91,.4,.39,.05,.047,.036,.03,.018
5,MΩ,3,1,2.7,1.3,2.4,22,6.8,5.6,7.5,4.3,3.9,3.6,1.2,1.6,1.1,1.5,6.2,9.1,13,18,12,4.7,3.3,2,10,2.2,100,5.1,20,30,15,1.8,8.2
10,KΩ,16
10,Ω,470
10,uF,3.3,10,1,47,2.2,4.7,22
10,pF,220,1.2,3.6,4.3,5,2.5,10,270,7,8.2,7.5,6.8,510,1.8,.3,560,2.4,.5,3.9,150,820,3.3,2.7,300,2.2,2,9,8,9.1,6,1.5,4,.75,100,390,3,4.7,470,5.6
20,uF,2.2,1,4.7,22,10,100
10,nF,5.6,33,680,470,10,100,1,47,2.2,330,150,22,220,1.5,3.9,1.2,2,8.2,2.7,6.8,4.7,15
1,pF,18,270
20,nF,470"

/-- The other ratings, one a line. What is not known is left empty. -/
def bounds : String := "2.2,2.178,2.222,Ω
4.7,4.653,4.747,Ω
82,81.18,82.82,Ω
18,1.71e-11,1.89e-11,pF
33,3.135e-11,3.465e-11,pF
68,6.46e-11,7.14e-11,pF
100,9.5e-08,1.05e-07,nF
1,9.5e-10,1.1e-9,nF
100,,,nF
470.00000000000006,4.465e-10,4.935e-10,pF
,,,F
10,.00095,.00105,uF"

def packages : List String :=
  ["0402", "0603", "0805", "1206", "0603_X4", "0402_X4", "0603_x4", "0402_x4", "0402*4",
  "0402_x8", "0603_x2", "16P8", "0402_x2", "2512", "2010", "1210", "1812", "0201", "1005"]

/-- The parts in stock. The number of a part, its rating and its package make one number, of
which the package is the last digit and the rating the one before. -/
def stock : String := "-QQ=2,w(cQ,v+gm+dvmi,Ru<C(Di?,(DnYX(GCoV+60Gh(D-KR1wbc+(Ckti(D/*8.+kt(+GNOp,q5>d+lF@0+ceZG+lGR_-PZ
,R,oru=,oR3i+g5gV,rx3>(rDVm(tLlw,p?Am+dsY))foil(pu@@(r;x?+eb7G+2bQ7,RvB4-QcOo-P_EI+cn)O+eY/.+d<<2,
vkvD+i*34+hFlg,vujT*kP`+,v._0,s;tg+_T?80:FKr(Do*k(GWxH(Dv9W(C:T<(E=,T(DFoq(BcOy+lI5?(v8GH*Pnd1+eW4
E,ow-),sDTN,vg]M+i.9e,vp=5,vqQW,pq1^+f,0L,s7XU-E<`;.jU@(+h5[2+g[>v(rjuN,p<OK,rfuI-Q*Rq(DYvY2Y^xF-:
nhK+GM+t3@M0y(HE;j,oabT-Qb,G,rPaK-SHAm,vf+.,w.PD+iLV>-v<Q8,vN+9-Qy);,w,q+,wZzQ,wCnX,w`2=(tg`4-QmYF
,y_uV+fJ=M(rcfb-UB:E+l3kQ(GODt(E2W3(C-Yw*rm/J+co_0-Dxa-+ccxg-VYQ,+gH^z-S9xM,v*8;/*j::(C/,2+ln/9+lD
^O)TtWH,p.3y-PpY?+fDQ;+fH]M,rvV9,rWJX(smlJ+f*RM(E3),+c:i7-QiAI+lyDj-SOQg-EOBx(C90A,i.A/
-HG]*-Dz1T.D;K3+gb+[,vA6c,wdM;,x,r1,x6ho,vnaC+iPdk,w8Ua,w;>2+jVNi,t,)[-Q>^C,s>oe,svIn,p>1l-RkuV,rW
A/+f1o_,yioB-Tk`/,x.7N(G<bJ(CEXa(CsT(-EaU:+iRD1,wox9,vR?N*^r:w,vz8A+j0xj-Ql:@+m1l-
-S*4l-Q.o/,s,:[,t-Y4+g`KU(FSJr,rQnK+dF1c-Eeok*ODFH.1?vn,wPmR-Et:k,s*tk+l2:y-Q7Re+gYcD,v>Or-QDJv(C3
G0(C2u=(DzTB(G`4o3DkJ52uIg`-Qe,M-RdfC(r2*m+cV7?,pY>S+f_;5(rNfL+jd;]-QYz0+dlMP,pZm_,s:d?+mAmG-E5OT,
s9Tr+mF3>+fZ/O-Q0Dr(EHUl(GIY5(GhBw-W+Gz+hK.),v]R)+i/pf-LW;K(J_hk,tK^2+i>?:-Em,+(uc8+,w7)I(sW7u-Saf
p+ftt?+tG[;+gD9R-1XnM+LbXu0((`b(CKgx(Btd5(DT:o-IP04,oPoE-Pjq.-Ph,F+d:`g+fy/R,s)Gg+gG.N,I?6=-ExT[,w
nav,x0t-+k<N@-QNLW+i8Pa-G/Kz-Ej3Z+im+=-r)Ec-Q3;u,v8]d+h-:P,pLG<+g8r@+ee(o-Q-Lu,x>*^.*g<@,AVN;-QT7]
+jZYT+juPL+k/ID,vIps+i(Sh+iK,.-SSjd-QW0-+j)q`/pLe,-R*Pd+e(+V+dn/q-Po8X+eM8f-Q)31-E;:3+fBu6,yg4D+ej
p7-FxI8+epV.-EMpI-G+4=-R04G,v<x((C0O3(C=K?+6.x;(D)5p(Bi]p-T>;d-E)zJ+fzaK(uBfF+h.W),`?e0.MxI((GNtb0
EA]`(H2+C+cy]*+eF+F+k@]-+kV3l-E.D<(Db54(C@B/6J`i,(CXbw(F+_A(F75X-E4.4,d(3P,vYiq+hgS,*n6jQ+mmvA-Skn
g(CC6W1p/fW(EQ7:(BeEY-PC^m,oT0X-LJBA,v7:]+kCE_+kg(o-TYR[-Ebyb,pA)U,pE:V-HF9v-W13,3+I>w(r+=8+e6>`+l
hF(,rU(v-R-CY+jt:6(C6>Y(CHv*(GFeL)cXVO*qsK7+d0da+dUvQ,vOzB-SD.>+in`J-G.*3,wOVc+j]=/+jTxR-Sc9_,wm5l
,x<e-+hN/v+h>EC+hLaU+i6to+j@m3,p+H@-PyBC-S.SQ+fsG;-EK+;,vEvY-Q=;<(E:8y(CN_;(CP.i(ENBe3DJpn-VX-W(H(
MZ+.klM,ojI_,p,vQ,pFiN(rPE?(HcoB+c<ez-W8p(-G2Dq+FBkT(GR=W(CRyR(HMe.+hHhp-W4(u,wN*K-W.>C-W2Wa+8.[*(
C>qG-PE0((J6He(J@mr(JTeD(JZOI(Jd/q(Jn4-(JvgT(K,e:(K/Kx(K2AZ(K3eo(K9PG(KAs](KCDW(KG^u(KI/p(KQcD*Uol
2*Uq?4*Uw9+*Uxjw*Uyr[*V(RH*V)wC*V+H>*V/PO*V1?n*V2Uq*V3k@*V5Jm*V6a]*V9fW*V<Kb*V>+A*V@d8*VB6g*VCjg*V
E)[*VH11*VL:v*VMo6*VO0X*VSIv*VTlj*VV=+*VWd@*VY5;*VZtX*V^JJ*V`.r*VaRm*Vbhc*Vf/x*Vg/
-+KRFp-L?i@-LAB1-LC4w-LDY2-LF,t-LGO(-LI-a-LKvC-LMFW-LQTj-LTUj-LUo4-LXdj-L[YL-L^+G-PB;h-PH*g-PINb-P
Jq/
-PLDD-PO4K-VN/>-VOWZ-VPwt-VSqx-VUB_.@6Zs.Atw+.D=1P.NCh;/:z==/VbhN/Yc`E0,Dp60DxBk1@R3Z1Wn_U2D)3m3AR
z53bp:^3i)TH4=[9<51Wp86;VWB-LNl92vRLL52vh@Bu2GeIb1gp1@Pu8412s>3ysg^*VF^/
-PMj`B5u;P-LZ@o4ZE2D8gTgj7zlFL8/Ol4BlDozO(RJ7O(T3gO(UMebd<Fgbd=kbbd?.+bd@Q,bdCTYbdI;UG1rWh,VK>;,oX
;1,o[-y,raAT,s=a1,syTD,vxx?,wG)j,wwHF,oxm-,p^h6,vBoW*n3v<,q+Vk+cX*l-L5jR9DD7(86[@/EbNp2EbTZ7n7)?lb
m>s)bmI<,bmJj*bmKlYbmM_`bm,3Hbm3Jlbm4ogbm6@bbm8)Dbm;(dbm<L_bmf_Ubmh=ubmivjbmkGebmlb<bmn(zbn0=kbn7d
Rbn>KFbn@D(bnAV0bnC3HbnDWVbnEjKbnX>2bdL6nbdMZ/bdO,*bdPO+bdR5FbdSEZbdThbbdV+QbdWrxbdYD3bdZ^Jbd]9ibd
^^dbd_v4bda?9bdbjIbdcy=bdg3AbdhW<bdirabdkC[bdm)*bdn9>bkos6bl(J]bl)oWbl+<kbl,aybl6i5bl86Hbl9+gbl=g;
blxE@bly]*blzpybm)]V]o-dR]o0mH]o2>C]b.Zu]b0,p]b1dW]b2eg]b4YM]b5ZI]nskn]nuP)]nvs0]nwu`]ny_O]nzkB]o)
[A]o+-O]o,?1bcu=Nbcvilbcx4QbcyjEbd((-bd)a[bd*aJ(?jKV(?s-rCh?WqE,^l4;eKb.;xBUE<3O]Q=:Yef>S(3p?>ufk?
W+>)?v=.a?v>T)]amQI]angR]ap]Y]ar1i]as<N]at`)]avED]awHn]ay:@]az_;]b)0I]b*TD]b+y?]b-HF]bDHt]e=qW]e@g
:]eB@e]ew0p]exTk4md5R4xfNG5AeeS5B=jf5jw,a6lO-u6ym8U7D5ZJ7ZpIT7[Xka7[Yh;7tHq[-P;.u-P<Qv-P>,:-P?F8-P
@mtBKby)BKenrBXT-(-l6L<.<.T?.k6-N.v-)H/.8Gg/9D>P/Ckcs0Fbf)0Uf``0Uh`=0s:>P1L/I91[u[L1tk2.2C7mI2_`:x
3(M?V38k>13D^x53t@*63tDL/4.PD446xF+,DY;],D[jC,D^<K,D_Ti,DaS9,DbLR,DdEG,DeYC,Dg)^,DhXv,Dido,DlP(-G5
e(-G72u-G8^l-G:0:-G;Oz-G=*x-HMRL-HONU-HPlh-HR:b-HSfX-HU4,-HVb*-HX,v-HYIN-HZnI-StuN-SvOs-Swm8-Sy<f-
Szkq-T)6j-T*V0-T,.-
-T.z^-T0?.-T1ep-T392-T4ec-U+pT-U-<n-U.gk-U041-U1aH-U2xl-U4KZ-U5rp-U7J@-U8p5-U:5?-U;ek-U=6f-U>Sx-UQ
3T-URY0-USz0-UULr-UVt4-UXLe-UYeo-U[BZ-U]`m-V(pi-V*=i-V+[;-V-
/=-V.Qk-V0-v-V1Ko-V2l5-V4C2-V5cK-V7<c-VImo-VK9;-VLff-WG?j-WH_6-WJ4y-WKY4-WM*Z-WNM[5>l:B5OpbD7J-FR9
;hJQ9bnTZ;O]7<4wPCg51HE(51N0-1_[TU22V-+2Ieo<2ja@vK7tUn+?Z)L+?[>/+DCqy+z()g+z*Bm,T?5U,T@TH-?tSs.lcl
*/N_hP0:UIv0?ExG0F,Q_0WDoM0ft+118G.A1rB;G1rCav2=.Y;2N+ls2V2fC2WRT,2jvU22s,>?3Q?:03`.1T3pAtQNYwY/4+
i)D(=-^w(=95((>BnL(?Lpu*CO`+*CwIy*D.YR*DQ=]*Rid?+=5@w+=6f2+>l;c+Y6(D+vPK`+vQot,7]Yi,7_(c,8RTY,8Syh
,8U].,8V_J,;g5-,;hV:,?_/?,?a)T,D7jZ,D9NU,D:^I,D<A7,D=aP,D?=i,D@V3,DB(.,DCS_-B:qR-B<FH(=Nan(@8Na)hm
/E*DkwB*R[bD*R^3R*S[9I*Sh1E*Smk<*TgJe*ZGHA*bI@2*xFXe+@YoG+U.7/+sn^U+sy9R+yl=B+yo2x+ypP^,DDiT,DFRD,
DG`k,DI7A,DJOK,DL08,DMGH,DNuF,DPNJ,DQdz,DSE:,DT`K,DV4Z,DWU.,Dn0T,DoFD,Dq)8,Dr>A,Dsh1,DuCv,DvYR,DxC
/,DyNN,E(4j,E)?v,E*rU,E,7s,EC9o,EDj4,EF(U,EGi@,EHz;,EJQ8,EKfZ,EM;=,ENs8,EPIu,EQ[j,ES9i,ETOl,EV/_,E
lA/,EoVc,Eq(7,Er57,Esb;,Eu/(,Evi=,Ewp;,EyL@,Ezb6,F)C0,F*_(,FAg`,FC*),FD[[,FF/q,FGCF,V8`X,y^sa-F-@K
-F.bE-FDHp-FEip-FG/t-FH^l-FJ3;-FKJ_-FLm?-FNM?-FOh*-FQ5w-FR[,-FT3<-FjY-
-Fl5r-Fm_N-G>I1-G?fI-GA7D-GB[?-GD>Y-GEXD-GG(_-GHX^-GJ)_-GKJl-GL_A-GN/U-Gda=-Gf;b-GgRr-Ghxz-GjS_-Gk
tr-GmK[-Gnk;-Gp02-Gs1X-Gt[B-H7*+-H8Vi-H:-E-H;CH-H<g]-H]Cy-H^j.-H`FF-Haa1-Hc0K-Hd`d-Hf.q-HgBF-HhfZ-
Hj:V-Hk]^-Hm1Y-I/],-I17d-I2`F-I4/a-I5F7-I6y=-I8<S-I9k_-I;3V-I<b(-I>4C-I?I`-IA,z-JZ.Y-J[w:-J^E4-Jsr
a-JuF]-Jvu.-JxB.-JyfB-K(:e-K)[r-K*vp-K,EP-K-lR-K/J8-K0dv-KFGf-KGnA-KI>i-KJT2-KL7L-KMIh-KNop-KPCE-K
QeR-KS8A-KTf,-KV-w-Knzj-Kpxg-Kr>W-KscR-KuCf-KvW;-KyZi-L((i-L)Am-L>rZ5WJ0q6-NQA69Pgy6=HM[7MK.H7XS:e
7dWBm8+@.e8Bun/8xDeG9zPp,:*2>o:K5HA;2:[^;rZB9=)xlc>xtUO?AoGU?Aq+0@swm1A5(Ek3a,J13a/Tm3rfh(3u5g>3un
h]3z2yk41+ps-LtgN-Lv6U-M8f]-M:9r-M;cb-M=1H-M>T]-M?uI-MAH_-MBhQ-MD?;-MEdI-MG1I-MH_G-M_4,-M`Wz-Mb-^-
MdvS-Mf@?-Mi=D-MjUN-Ml)d-MmVb-Mo(]-Mqb:-Ms5)-N5d6-N7;3-N8dc-N;Xr-N<vJ-N>C^-N?sO-NBb6-ND*i-NELp-NG,
<-N]TG-N^vA-N`GO-Naqf-Nc9J-NdY^-Nf/
-
-Nhwv-NjNs-NkxO-NmHw-OU<^-OVQ@-OX.E-OYHj-OZnK-O]Fi-O^hO-O`8d-OaXP-Oc,f-OdTH-Oep@-P(PB-P)qU-P+Is-P,
p;-P.Bj-P/[Z-P11P-P2Q>-P3qU-P5Aj-P6uj-P87r-P9Yy-SpfA-Sr3A-Ss]1-T6*m-T7ZX-T8xk-T:Lg-To66-TpU)-Tr-9-
TsL,-Ttm,-TvBo-Tw[9-Ty6^-TzRv-U(vP-U*Q[-U@(t-UG4M-UH^=-UIvZ-UKI]-ULm7-UNHB-UOg;-V8T3-V9zu-V;N7-V<z
h-V>?r-V?p^-VA:p-VBbl-VD,X-VEMR-VFs4-VHCE-V_KZ-V`jz-Vb@j-Vcex-Ve5y-VfYM-Vh,U-ViKH-Vjv2-Vo:I-W5zl-W
7Qi-W:Fx-_=1P-`6-H.o8Iy.q=cJ.q?7m.tvJx/.k0j/Sqf=/zcPK0-ZY<0/_Sa05rdo08ma30Axv^0B*9i0B+Oj0Bf9L0Bp>B
0I<i617iKT17trl1;n)O,E-W9,E/3D,E1(+,E2L9,E3[z,E51I,E6RV,E8)3,E959,E:bw,E<1W,E=KU,E?)A,E@AK,EB+b,EX
l=,EZ/
-,E[eG,E^.9,E_E],Ea3n,Eb^W,Ecd[,Ee8k,Efta,Eh1(,Eia@,Ek;e,F,I8,F-^G,F.xE,F0TJ,F1oH,F3G?,F4cJ,F6>/,F
7[.,F948,F:EY,F<2^,F=<6,F?,u,F@4F-F07(-F1dy-F302-F4LJ-F5qE-F7B@-F8xZ-F:?E-F;n=-F=,8-F>OL-F?wH-FAFO
-FBnK-FUWJ-FVph-FXE7-FYx=-F[;S-F]j_-F_2V-F`a(-Fb3V-FcW+-FdmG-Ff>B-FgdJ-FiEk-GRMT-GT(y-GUHy-GVc*-GX
=u-GYfD-G[4Q-G]^.-G^s7-G`Ak-Gahm-GcFR-GurX-GwMd-Gxi[-GzD-
-H(j[-H*;0-H+PL-H-3g-H.F/
-H/l7-H1MW-H2bg-H45/
-H5V<-Hn`+-Hp-+-HqF/
-Hrtz-HtII-HukV-HwA3-HxV<-Hyxp-I(Kr-I**W-I+DB-I,rg-I.6w-IB?B-ICeJ-IE7?-IFZ-
-IH-o-IIZY-IK16-ILFf-J_q+-Ja>Q-JblO-Jd09-JeT4-Jg*d-JhOl-JinQ-JkPl-JlkV-Jn:q-Jok6-Jq9C-JrOY-K2?G-K3
VW-K5)`-K6WD-K7xW-K9If-K:nt-K<3k-K=[:-K?5>-KAv>-KCQI-KDmA-KWQ8-KXpl-KZQ,-K[sL-K^;1-Ka3R-KbP+-Kd1>-
KeH(-Kfv`-Kh=^-L*pe-L,E4-L-gA-L/.?-L0Os-L1yv-L3I=-L4wu-L7k*-L9Ag-L:cM-L<+E-L=M`-Lwhu-Ly9p-Lz^k-M)(
V-M*N2-M+x[-M-=f-M.e(-M097-M1ct-M34o-M4IQ-M5yV-M7A(-MIz,-MKG?-MLzl-MNJ3-MOe1-MQ3x-MRYz-MT/6-MUU_-M
W,;-MXOc-MYig-M[Ce-M]_I-MtY^-Mv/z-MwO@-MxvU-MzK8-N(m2-N*>@-N+_@-N-9>-N.Sv-N/u6-N1Tc-N2n@-N4=4-NHP7
-NIu2-NK>q-NLeL-NN;v-NOT-
-NQ(B-NRUS-NSzN-NU<1-NVbs-NX4T-NYZj-N[*7-NnfO-Np3c-Nq`-
-Ns2H-NtWw-Nuqh-NwF^-OH5G-OIWN-OK7.-OL[)-ON-J-OOET-OPlj-OR@y-OSkc-OgG*-Ohl8-Oj98-Okg6-Om.n-OnO.-Op
.:-OqH8-Ork,-Ot>.-Ouf=-Ow9f-OxcB-Oz3j-VpXi-Vr-+-VsQL-Vty5-VvHc-Vwh/
-Vy;D-Vz_l-W)5[-W*Uo]e,iS]e.;[]e/V-]e11>]e2RK]e3tE]e5AX]e6oC]e8=)]e9dx]e;)o]e<YZ]eycQ]f(C>]f)gR]f+
4R]f,]5]f-t2]f/R+]f0rWbmS:9bm=dHblnC_blolAC=:MkBXUS*]ne[`]ng*F]nhL:]nijs]nkE182M*b]nlg>]noUK]nq1V]
nrUQ]o3S:]o4zc]o6S-]o7x(]o:bz]o<>E]o=c@]o@M,bm+2`]oAq-]oCME1[grD0htKI1+qtb/S]-B.y1,)6W@^H5Cu_j5@B=
H444t73ZX0M2m/ns,5I7J+z-`_+z1=Z,iTtn-IM@@-INd.-Ki9=G:QSA59_fP6^+Of:ZlAG:Zmhp:Zo5]:Zp^RJ0yYaJ1-[vJ1
0QXJ0U@yJ0WX_J0ZC7J0n]rJ0p1ZJ0qWIJ0si3J0MHkJ0NmfJ0bPCJ0d.TJ0dZCJ0f-rJ0h@cJ1(+HJ1)HnJ1*tQJ1,E9.xA=]
/*k^;I6g]u/1p@+/L.vYJ1?XrI._(F=Em8u=F)mgHdL=8HdMaqHdO24J1AfaJ1Cy>J1Z@RJ1ZvkJ1^2tII5qm/RV.e=F(Ie/Vf
djHdPO1Hkw,;J1;=tJ1>5qJ1F9/J1I.eJ1UnWJ1a*qJ14/ZJ15SUJ17bxJ198.J1KwFJ1M;jJ1MqHJ1P5ZJs@vKJ19ozJ1GUZJ
1JOKJ1QYiJ1TIpJ1_Y6J1bS8;f,=BJsDMLJCJ6)JCM*);ol2x0-RD=JCHeB/rHNd/wu*,0Fiwx/sf*Q0sy:sJI_[T0a[b80vFn
CLAiSkLAlM5LAw:8LAz4OLB.J8LB1>`LB;7eLB=DSLBH1CLBK+GLBR5RLBU-cLB_F;>N+/1LAoCeLAp_]LAryILAtEcLB4.SLB
5MmLB6rhLB8CcLB9)/LBLOiLBMx8LBOA=LBPpoLAkiOLAn`yLAuo?LAxe5LB/omLB2^fLB?RcLBFfqLBIVrLBSfeLBVX3LB`c@
LAey0LAf`/LAh5KLB(agLB*+yLB+VILB,n3LB@t]LBA[VLBDRmLBWx_LBYAdLBZpYLB]AALB^hC?o`*2?p:CB2cucT0WTk82cq
u,2-*u-2;hI-2NvFA2bX7A28OU52>tns@ml=C23yj`2Np]r1pPdn1wjNA>S>4P>SA672lO*J2uO(=2y(ja37RMu3]tzn>tSb/>
tX2G2uD572uG`M3(PkO35_1X3@LOW3DQL03hMyL2l<ES2lGmx2uL*Q3ldY^48?95>tPmF>tZpY3M>T43OFlU3la[8>tR=n>tYV
/3ByZG3F_a[@[vON4EPp44gSVH5+SpU(IGlw8FoBq8K+?qvZNrwne*J4o9fLR;BuJK>`PoRo9k<Zb9npi5JDAdh8Z9^H]nb0OG
gX_BGJXY(Dl;JC)E_u:E79q(D[M0l.sLgiN<*Nm(nDwBER-HJKwUaJOvz(>n4OL8Mc9l(ExIT03b+0.YH:jP0Yur7ZIIm(DH=D"

/-- The prices of the first parts in stock, in ten-thousandths. -/
def prices : String := "(Q(8(:(E(8*H(k)H)k*))=(X(R*+*Q(8(T(I(R(;(=(8(D(=(9(N(8(E(H(Q(8(Z([(8(8(M(D(H(D(I(D(C(@(:(8(>(4(e(r
)I(p(:*<(Y*5(R(R(2(C(?(9(Y(D(>(8(:(D(8(3(8(Y(D(8(8(H(4(m*.*R)0)O+g(8(8(I(1(=(8(D(D(I(N(9(8(9(W(C(8
(I(Z(:(D(Q)W(i(C-j(D(6(Y(D(D(@(=)t(:([(R(<(9(3(D(E(8(9(>(E(m(X(:(Q(;(5)A(o(d(>(`(Z(A(J(:(8(<(E(>(9
(D(9(=(>(:(9(=(>(E(8(8(:)B(V(S(<(Y(F(<(<(9(L(m(R(2(^(=(Z(D)s(>(M(;(5(D(8(3(G(R(Q(K(:(3(:(;*,)W+2(j
(G(6(:(K(8(Z(l(D(3(E(8(=(S(:(@(R(D(3(O)W)8(M(N(:(Z(`(`(<(Q(3(D(:(:(3(Q(L(P*F)u(L(S)W(V(x(:(3(3(E(R
(;(E(I(Q(I(<(Z(5(I(_(<(M(8(5(;(D(:(P(N(?(K*,(d(3(Z(G(J(B(E(](Q(5(D(3(K(I(D(E(M(?(3(I(:([(=(F(3(N(I
(I(C)W)=*J)A(>(3(J(E(J)1)B)n*8)s(L(L(J(L(L(L(Q*)(:(l*I(6([(:(I(?(S(3(:*5(L)W(^(?(X(Q(H(L(:(3(;(:(J
(N(3(_(I(q(>(H(I(:(:*b*6(](Z(K(@(3(F(:(;(F(F(Q(W(N(I(Z(I(L(H(9(?(3(E(3(>(I(_)W(:(O)=(9*D);(I(9(9(;
+n(R(B(N(J*/)T+C(P(Q(9(P(O*>(:(^"

end Boardwright.Catalogue
